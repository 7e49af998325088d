import TraceEngine.Json.Basic
import TraceEngine.Propagation.Context

/-!
What one transaction exchanges with other services. It accepts at most one inbound context, and none once it has
created an outbound one.
-/
namespace TraceEngine

structure ExchangeCounts where
  acceptSuccess : Nat := 0
  acceptException : Nat := 0
  ignoredMultipleAccept : Nat := 0
  ignoredCreateBeforeAccept : Nat := 0
  createSuccess : Nat := 0
  noOwnEntry : Nat := 0
  invalidOwnEntry : Nat := 0
  deriving DecidableEq, Repr

def ExchangeCounts.metrics (n : ExchangeCounts) : List (String × Nat) :=
  [("Supportability/TraceContext/Accept/Success",n.acceptSuccess),
   ("Supportability/TraceContext/Accept/Exception",n.acceptException),
   ("Supportability/TraceContext/Accept/Ignored/Multiple",n.ignoredMultipleAccept),
   ("Supportability/TraceContext/Accept/Ignored/CreateBeforeAccept",n.ignoredCreateBeforeAccept),
   ("Supportability/TraceContext/Create/Success",n.createSuccess),
   ("Supportability/TraceContext/TraceState/NoNrEntry",n.noOwnEntry),
   ("Supportability/TraceContext/TraceState/InvalidNrEntry",n.invalidOwnEntry)].filter (0 < ·.2)

def ExchangeCounts.toJson (n : ExchangeCounts) : Json :=
  .object [("accept_success",.integer n.acceptSuccess),("accept_exception",.integer n.acceptException),
    ("ignored_multiple_accept",.integer n.ignoredMultipleAccept),
    ("ignored_create_before_accept",.integer n.ignoredCreateBeforeAccept),
    ("create_success",.integer n.createSuccess),("no_own_trace_state_entry",.integer n.noOwnEntry),
    ("invalid_own_trace_state_entry",.integer n.invalidOwnEntry)]

/-- What a transaction takes over from a context that it accepts. -/
structure AcceptedTrace where
  traceId : TraceId
  parentId : SpanId
  parentTransactionId : Option String
  /-- The role, by the flags of the parent header. -/
  role : SamplerRole
  inherited : Inherited
  deriving DecidableEq

/-- What the parent left open is settled by the adaptive sampler of the role. -/
def AcceptedTrace.decision (a : AcceptedTrace) : Decision := Decider.settle a.role a.inherited

/-- What a transaction says of itself in an outbound context. -/
structure OutboundRequest where
  traceId : TraceId
  /-- The segment that makes the request. -/
  spanId : SpanId
  transactionId : SpanId
  sampled : Bool
  priority : Binary64
  key : Option String := none
  accountId : Option String := none
  applicationId : Option String := none
  timestamp : Nat := 0

structure Exchange where
  accepted : Option TraceContext := none
  created : Bool := false
  counts : ExchangeCounts := {}
  deriving DecidableEq

namespace Exchange

/-- Takes a context over, unless another was accepted or created before. -/
def accept (x : Exchange) (d : Decider) (c : TraceContext) : Logged (Option AcceptedTrace × Exchange) :=
  let n := x.counts
  if x.accepted.isSome then do
    .write .debug "Propagation: ignoring a second inbound payload"
    return (none,{ x with counts := { n with ignoredMultipleAccept := n.ignoredMultipleAccept + 1 } })
  else if x.created then do
    .write .debug "Propagation: ignoring an inbound payload after an outbound one was created"
    return (none,{ x with counts := { n with ignoredCreateBeforeAccept := n.ignoredCreateBeforeAccept + 1 } })
  else
    let role := SamplerRole.remote (some c.parent.isSampled)
    let n :=
      if c.ownInvalid then { n with invalidOwnEntry := n.invalidOwnEntry + 1 }
      else if c.own.isNone then { n with noOwnEntry := n.noOwnEntry + 1 }
      else n
    let accepted : AcceptedTrace :=
      { traceId := c.traceId, parentId := c.parentId, parentTransactionId := c.own.bind (·.transactionId), role,
        inherited := d.remote role c.traceId c.inherited }
    pure (some accepted,{ x with accepted := some c, counts := { n with acceptSuccess := n.acceptSuccess + 1 } })

/-- Accepts the context in the headers of a request. Headers that cannot be read are reported and counted, and
nothing else comes of them. -/
def acceptHeaders (x : Exchange) (d : Decider) (c : Carrier) (key : Option String) :
    Logged (Option AcceptedTrace × Exchange) := do
  match ← TraceContext.extract c key with
  | .ok (some context) => x.accept d context
  | .ok none =>
    .write .debug "Propagation: no trace context on inbound request"
    return (none,x)
  | .error e =>
    e.report
    return (none,{ x with counts := { x.counts with acceptException := x.counts.acceptException + 1 } })

def ownEntry (r : OutboundRequest) (key : String) : String × StatePayload :=
  (key,{ accountId := r.accountId.getD "", appId := r.applicationId.getD "", id := some r.spanId.text,
          transactionId := some r.transactionId.text, sampled := some r.sampled, priority := some r.priority,
          timestamp := r.timestamp })

def create (x : Exchange) (r : OutboundRequest) : OutboundContext × Exchange :=
  let others := (x.accepted.map (·.others)).getD []
  ({ traceId := r.traceId, parentId := r.spanId, sampled := r.sampled, entry := r.key.map (ownEntry r), others },
   { x with created := true, counts := { x.counts with createSuccess := x.counts.createSuccess + 1 } })

def insertHeaders (x : Exchange) (r : OutboundRequest) (c : Carrier) :
    Logged (OutboundContext × Exchange × Carrier) := do
  let (context,x) := x.create r
  return (context,x,← context.inject c)

end Exchange

end TraceEngine
