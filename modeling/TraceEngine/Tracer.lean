import TraceEngine.Sample.Store
import TraceEngine.Transaction.Checked
import TraceEngine.Transaction.Snapshot
import TraceEngine.Transaction.Tracing

/-!
The tracer: settings and rules that all transactions share, and the store of the samples of those that ended.
-/
namespace TraceEngine

structure Tracer where
  settings : Settings
  decider : Decider
  store : SampleStore

namespace Tracer

def ofSettings (s : Settings) : Logged Tracer := do
  return ⟨s,← Decider.ofSettings s,SampleStore.ofSettings s⟩

def startTransaction (r : Tracer) (name : String) (guid rootGuid : SpanId) (traceId : TraceId) (start : Time) :
    Transaction :=
  .make name guid rootGuid traceId start r.settings r.decider

/-- Stores the sample of a transaction that has just ended if its trace is sampled. The sample is handed out, too. -/
def keep (r : Tracer) (chance : Chance) : Bool × Transaction → Option Sample × Transaction × Tracer
  | (false,t) => (none,t.debug s!"Transaction {t.name} was already finished",r)
  | (true,t) =>
    if (t.decide chance).1.sampled then
      let s := t.toSample
      (some s,t,{ r with store := (r.store.store s).2 })
    else (none,t,r)

def finishTransaction (r : Tracer) (t : Transaction) (stop : Time) (frames : List String) (chance : Chance) :
    Option Sample × Transaction × Tracer :=
  r.keep chance (t.finish stop frames chance)

def checkedFinishTransaction (cut : Cutoff) (r : Tracer) (t : Transaction) (stop : Time) (frames : List String)
    (chance : Chance) : Option (Option Sample × Transaction × Tracer) :=
  (t.checkedFinish cut stop frames chance).map (r.keep chance)

end Tracer

end TraceEngine
