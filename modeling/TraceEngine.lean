import TraceEngine.Text.Blank
import TraceEngine.Text.Hidden
import TraceEngine.Text.LetterCase
import TraceEngine.Text.Natural
import TraceEngine.Text.Hex
import TraceEngine.Text.Quoted
import TraceEngine.Binary64.Basic
import TraceEngine.Binary64.Arithmetic
import TraceEngine.Binary64.Reading
import TraceEngine.Binary64.Decimal
import TraceEngine.Time
import TraceEngine.Coverage
import TraceEngine.Identifier
import TraceEngine.Entropy
import TraceEngine.Log
import TraceEngine.Json.Basic
import TraceEngine.Json.Text
import TraceEngine.Json.Reading
import TraceEngine.Sampling.Role
import TraceEngine.Settings.Source
import TraceEngine.Settings.Basic
import TraceEngine.Sampling.Ratio
import TraceEngine.Sampling.Strategy
import TraceEngine.Sampling.Adaptive
import TraceEngine.Sampling.Decision
import TraceEngine.Sampling.Feed
import TraceEngine.Propagation.Fault
import TraceEngine.Propagation.Carrier
import TraceEngine.Propagation.Payload
import TraceEngine.Propagation.Context
import TraceEngine.Propagation.Exchange
import TraceEngine.Uri.Library
import TraceEngine.Uri.Percent
import TraceEngine.Uri.Host
import TraceEngine.Uri.Path
import TraceEngine.Uri.Basic
import TraceEngine.Segment.Fault
import TraceEngine.Segment.Kind
import TraceEngine.Segment.Basic
import TraceEngine.Segment.Tree
import TraceEngine.Sample.Basic
import TraceEngine.Sample.Buffer
import TraceEngine.Sample.Store
import TraceEngine.Transaction.Basic
import TraceEngine.Transaction.Segments
import TraceEngine.Transaction.Tracing
import TraceEngine.Transaction.Snapshot
import TraceEngine.Tracer
import TraceEngine.Proofs.Coverage
import TraceEngine.Proofs.Identifier
import TraceEngine.Proofs.Settings
import TraceEngine.Proofs.Segment.Lookup
import TraceEngine.Proofs.Segment.Change
import TraceEngine.Proofs.Segment.Progress
import TraceEngine.Proofs.Segment.Closing
import TraceEngine.Proofs.Segment.Accounts
import TraceEngine.Proofs.Segment.Timely
import TraceEngine.Proofs.Segment.Results
import TraceEngine.Proofs.Segment.Total
import TraceEngine.Proofs.Segment.Nested
import TraceEngine.Proofs.Segment.Orderly
import TraceEngine.Proofs.Segment.Reach
import TraceEngine.Proofs.Segment.Frame
import TraceEngine.Proofs.Segment.Finalization
import TraceEngine.Proofs.Segment.Standing
import TraceEngine.Proofs.Segment.Serial
import TraceEngine.Proofs.Segment.Siblings
import TraceEngine.Proofs.Segment.Twin
import TraceEngine.Proofs.Transaction.Run
import TraceEngine.Proofs.Transaction.Accounts
import TraceEngine.Proofs.Transaction.Ended
import TraceEngine.Proofs.Transaction.EndOrder
import TraceEngine.Proofs.Transaction.Finalization
import TraceEngine.Proofs.Transaction.ExclusiveTime
import TraceEngine.Proofs.Transaction.Async
import TraceEngine.Proofs.Transaction.SegmentLimit
import TraceEngine.Proofs.Propagation.Exchange
import TraceEngine.Proofs.Transaction.Sampling
import TraceEngine.Proofs.Transaction.Origins
import TraceEngine.Proofs.Transaction.Outbound
import TraceEngine.Proofs.Binary64.Decimal
import TraceEngine.Proofs.Propagation.Carrier
import TraceEngine.Proofs.Propagation.Context
import TraceEngine.Proofs.Transaction.Continuation
import TraceEngine.Proofs.Propagation.Counts
import TraceEngine.Proofs.Propagation.Forwarding
import TraceEngine.Proofs.Propagation.Parent
import TraceEngine.Proofs.Propagation.Overwriting
import TraceEngine.Proofs.Sample.Order
import TraceEngine.Proofs.Sample.Buffer
import TraceEngine.Proofs.Sample.Harvest
import TraceEngine.Proofs.Sample.Store
import TraceEngine.Proofs.Sample.Resend
import TraceEngine.Proofs.Sample.Limit
import TraceEngine.Proofs.Sample.Slowest
import TraceEngine.Proofs.Sampling.Windows
import TraceEngine.Proofs.Sampling.Ceiling
import TraceEngine.Proofs.Sampling.Roles
import TraceEngine.Proofs.Transaction.ForcedEnd
import TraceEngine.Proofs.Transaction.AfterEnd
import TraceEngine.Proofs.Transaction.SampleTree
import TraceEngine.Proofs.Transaction.Current
import TraceEngine.Proofs.Transaction.Checked
import TraceEngine.Proofs.Sampling.Renewal
import TraceEngine.Proofs.Sampling.Floor
import TraceEngine.Proofs.Sampling.Share
import TraceEngine.Proofs.Coverage.Canonical
import TraceEngine.Proofs.Coverage.Measure
import TraceEngine.Proofs.Propagation.Rereading
import TraceEngine.Proofs.Propagation.Spelling
import TraceEngine.Proofs.Segment.Indexed
import TraceEngine.Proofs.Transaction.Indexed
import TraceEngine.Proofs.Uri.Percent
import TraceEngine.Proofs.Uri.Address
import TraceEngine.Proofs.Uri.Host
import TraceEngine.Proofs.Uri.Path
import TraceEngine.Proofs.Uri.Canonical
import TraceEngine.Proofs.Uri.Library
import TraceEngine.Proofs.Uri.Rereading
import TraceEngine.Proofs.Uri.Recording
