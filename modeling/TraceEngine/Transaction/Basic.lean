import TraceEngine.Propagation.Exchange
import TraceEngine.Segment.Tree

/-!
Transactions: one unit of work, its segments, its part in a distributed trace, and the decision whether it is
sampled. What a transaction writes to the log and which adaptive samplers it asks is kept with it.
-/
namespace TraceEngine

structure Transaction where
  name : String
  guid : SpanId
  traceId : TraceId
  sampling : Option Outcome := none
  start : Time
  stop : Option Time := none
  tree : SegmentTree
  /-- It was reported that there are more segments than a sample holds. -/
  overflowReported : Bool := false
  exchange : Exchange := {}
  /-- The inbound trace that is continued. -/
  parentTrace : Option AcceptedTrace := none
  forcePersist : Bool := false
  syntheticsId : Option String := none
  settings : Settings
  decider : Decider
  /-- All that was written to the log. -/
  records : List LogRecord := []
  /-- The roles whose adaptive samplers were asked. -/
  consulted : List SamplerRole := []

namespace Transaction

/-- A transaction with its root segment, which has its name. -/
def make (name : String) (guid rootGuid : SpanId) (traceId : TraceId) (start : Time) (settings : Settings)
    (decider : Decider) : Transaction :=
  { name, guid, traceId, start, settings, decider,
    tree := { segments := #[{ guid := rootGuid, name, start }] } }

def isFinished (t : Transaction) : Bool := t.stop.isSome

def write (t : Transaction) (records : List LogRecord) : Transaction := { t with records := t.records ++ records }

def debug (t : Transaction) (message : String) : Transaction := t.write [⟨.debug,message⟩]

def segment (t : Transaction) (id : Nat) : Except SegmentFault Segment :=
  match t.tree.get? id with
  | some s => .ok s
  | none => .error (.unknownSegment id)

/-- Fixes the sampling decision as that of a new trace, unless one was taken before. -/
def decide (t : Transaction) (chance : Chance) : Outcome × Transaction :=
  match t.sampling with
  | some o => (o,t)
  | none =>
    let d := t.decider.root t.traceId
    let o := d.outcome chance
    (o,{ t with sampling := some o, consulted := t.consulted ++ d.consulted })

@[simp] theorem sampling_decide (t : Transaction) (chance : Chance) :
    (t.decide chance).2.sampling = some (t.decide chance).1 := by
  unfold decide
  split <;> simp_all

end Transaction

end TraceEngine
