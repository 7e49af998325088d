import TraceEngine.Segment.Checked
import TraceEngine.Transaction.Segments

/-!
Ends of segments and of transactions with checked arithmetic. The program does its sums with durations of which there
is a longest and cannot go on past it; then there is no result. Where there is one, it is that of the ends without
checks.
-/
namespace TraceEngine.Transaction

def checkedFinishSegment (cut : Cutoff) (t : Transaction) (id : Nat) (stop : Time) (frames : List String) :
    Option (Except SegmentFault Transaction) :=
  match t.segment id with
  | .error e => some (.error e)
  | .ok _ => (t.tree.checkedFinish cut (t.backtrace frames) id stop).map fun tree => .ok { t with tree }

def checkedFinish (cut : Cutoff) (t : Transaction) (stop : Time) (frames : List String) (chance : Chance) :
    Option (Bool × Transaction) :=
  if t.isFinished then some (false,t)
  else do
    let records := t.tree.unfinished.map t.unfinishedRecord
    let tree ← t.tree.checkedClose cut (t.backtrace frames) stop
    let t := { t.write records with tree, stop := (tree.get? 0).bind (·.stop) }
    return (true,(t.decide chance).2)

end TraceEngine.Transaction
