import TraceEngine.Sample.Basic
import TraceEngine.Transaction.Basic

/-!
What is shown of a transaction: the attributes that tie it to its trace, its sample, and a line of text.
-/
namespace TraceEngine

def Priority.text (p : Priority) : String := p.value.text

def Outcome.text (o : Outcome) : String :=
  s!"SamplingOutcome \x7b sampled: {o.sampled}, priority: {o.priority.text} \x7d"

namespace Transaction

/-- The attributes of sampling are there once the decision is. -/
def intrinsics (t : Transaction) : List (String × Json) :=
  [("guid",.string t.guid.text),("traceId",.string t.traceId.text)] ++
    (match t.sampling with
      | some o => [("sampled",.bool o.sampled),("priority",.real o.priority.value)]
      | none => []) ++
    ((t.parentTrace.bind (·.parentTransactionId)).map fun id => ("parentId",.string id)).toList

def sampleSegment (t : Transaction) (s : Segment) : SampleSegment where
  guid := s.guid
  name := s.name
  parent := s.parent
  startOffset := s.start - t.start
  duration := s.duration
  exclusive := s.exclusive
  parameters := s.parameters
  error := s.error

/-- Segments beyond the limit are left out. -/
def toSample (t : Transaction) : Sample where
  transactionName := t.name
  guid := t.guid
  traceId := t.traceId
  start := t.start
  duration := ((t.tree.get? 0).map (·.duration)).getD 0
  totalTime := t.tree.totalTime
  sampled := (t.sampling.map (·.sampled)).getD false
  priority := (t.sampling.map (·.priority)).getD .drop
  forcePersist := t.forcePersist
  syntheticsId := t.syntheticsId
  intrinsics := t.intrinsics
  segments := (t.tree.segments.toList.filter (·.inSample)).map t.sampleSegment

def text (t : Transaction) : String :=
  let sampling := match t.sampling with
    | some o => s!"Some({o.text})"
    | none => "None"
  s!"Transaction \x7b name: {Text.quoted t.name}, guid: SpanId({t.guid.text}), trace_id: TraceId({t.traceId.text}), " ++
    s!"sampling: {sampling}, segments: {t.tree.size}, finished: {t.isFinished} \x7d"

end Transaction

end TraceEngine
