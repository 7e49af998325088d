import TraceEngine.Transaction.Basic

/-!
The part that a transaction has in a distributed trace: the context that it accepts, and those that it creates.
-/
namespace TraceEngine.Transaction

def entryKey? (t : Transaction) : Option String :=
  TraceEngine.entryKey? t.settings.trustedAccountKey t.settings.accountId

/-- Takes over what was accepted, and settles what it left open. -/
def applyAccepted (t : Transaction) (chance : Chance) (done : Logged (Option AcceptedTrace × Exchange)) :
    Bool × Transaction :=
  let t := { t.write done.records with exchange := done.value.2 }
  match done.value.1 with
  | none => (false,t)
  | some a =>
    let d := a.decision
    (true,{ t with traceId := a.traceId, sampling := some (d.outcome chance), parentTrace := some a,
                    consulted := t.consulted ++ d.consulted })

def acceptHeaders (t : Transaction) (c : Carrier) (chance : Chance) : Bool × Transaction :=
  if t.settings.distributedTracingEnabled then
    t.applyAccepted chance (t.exchange.acceptHeaders t.decider c t.entryKey?)
  else (false,t)

def acceptContext (t : Transaction) (c : TraceContext) (chance : Chance) : Bool × Transaction :=
  if t.settings.distributedTracingEnabled then t.applyAccepted chance (t.exchange.accept t.decider c)
  else (false,t)

/-- Writes a context for a request of the given segment. The decision is taken now if it was not before. -/
def createOutbound (t : Transaction) (spanId : SpanId) (c : Carrier) (now : Time) (chance : Chance) :
    Option OutboundContext × Carrier × Transaction :=
  if t.settings.distributedTracingEnabled then
    let (o,t) := t.decide chance
    let request : OutboundRequest :=
      { traceId := t.traceId, spanId, transactionId := t.guid, sampled := o.sampled, priority := o.priority.value,
        key := t.entryKey?, accountId := t.settings.accountId, applicationId := t.settings.primaryApplicationId,
        timestamp := now / Nat.pow 10 6 % Nat.pow 2 64 }
    let done := t.exchange.insertHeaders request c
    let (context,exchange,c) := done.value
    (some context,c,{ t.write done.records with exchange })
  else (none,c,t)

def insertHeaders (t : Transaction) (c : Carrier) (now : Time) (chance : Chance) :
    Except SegmentFault (Option OutboundContext × Carrier × Transaction) := do
  let s ← t.segment t.tree.current
  return t.createOutbound s.guid c now chance

/-- Writes a context for a request of a segment, unless the segment records no metrics. -/
def requestHeaders (t : Transaction) (id : Nat) (c : Carrier) (now : Time) (chance : Chance) :
    Except SegmentFault (Option OutboundContext × Carrier × Transaction) := do
  let s ← t.segment id
  if s.recordMetrics then return t.createOutbound s.guid c now chance
  else return (none,c,t)

end TraceEngine.Transaction
