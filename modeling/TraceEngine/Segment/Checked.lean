import TraceEngine.Segment.Tree

/-!
The accounts of time of a tree of segments, done with checked arithmetic. A step has no result where a sum exceeds the
longest duration or a difference of times lies below zero; with cutoffs refused, also where one would be cut off at
zero.
-/
namespace TraceEngine

open Time (checkedAdd checkedSub)

def TimeRange.checkedLength (r : TimeRange) : Option Time := checkedSub r.stop r.start

namespace Segment

/-- The duration of a segment is known when it ends. -/
def checkedStopAt (s : Segment) (t : Time) : Option Segment := do
  let s := s.stopAt t
  let _ ← s.timeRange.checkedLength
  return s

def checkedChildComplete (cut : Cutoff) (child : TimeRange) (s : Segment) : Option Segment := do
  let s := { s with activeChildren := ← cut.sub s.activeChildren 1 }
  if s.countsRange child then return s.addChildRange child
  else return { s with childrenTime := ← checkedAdd s.childrenTime (← child.checkedLength) }

def checkedRecountChild (cut : Cutoff) (child : TimeRange) (s : Segment) : Option Segment := do
  let s := { s with childrenTime := ← cut.sub s.childrenTime (← child.checkedLength) }
  return s.addChildRange child

def checkedRecordExclusive (s : Segment) : Option Segment := do
  let overlap ← s.childrenRanges.checkedOverlap s.timeRange
  return { s with exclusive := s.duration - s.childrenTime - overlap, finalized := true }

end Segment

namespace SegmentTree

def checkedModify (t : SegmentTree) (id : Nat) (f : Segment → Option Segment) : Option SegmentTree :=
  match t.get? id with
  | none => some t
  | some s => (f s).map fun s => t.modify id fun _ => s

def checkedRecordDescendant (cut : Cutoff) (t : SegmentTree) (descendant : TimeRange) (child ancestor : Nat) :
    Option SegmentTree :=
  let t := t.modify ancestor (Segment.addChildRange descendant)
  match t.get? child with
  | some c =>
    if c.rangeRecorded then some t
    else do
      let t ← t.checkedModify ancestor (Segment.checkedRecountChild cut c.timeRange)
      return t.modify child Segment.markRangeRecorded
  | none => some t

def checkedDescendantComplete (cut : Cutoff) (t : SegmentTree) (descendant : TimeRange) (child ancestor : Nat) :
    Option SegmentTree := do
  let t ← t.checkedRecordDescendant cut descendant child ancestor
  match t.get? ancestor with
  | some s =>
    match s.parent with
    | some next =>
      if _ : next < ancestor ∧ s.endedBefore descendant.stop = true then
        checkedDescendantComplete cut t descendant ancestor next
      else return t
    | none => return t
  | none => return t
termination_by ancestor
decreasing_by omega

def checkedChildComplete (cut : Cutoff) (t : SegmentTree) (parent child : Nat) (range : TimeRange) :
    Option SegmentTree :=
  match t.get? parent with
  | none => some t
  | some p => do
    let t ← t.checkedModify parent (Segment.checkedChildComplete cut range)
    let t := if p.countsRange range then t.modify child Segment.markRangeRecorded else t
    if p.isFinished then
      let t := { t with isAsync := true }
      match p.parent with
      | some grandparent => t.checkedDescendantComplete cut range parent grandparent
      | none => return t
    else return t

def checkedCountUp (cut : Cutoff) (t : SegmentTree) (id : Nat) (s : Segment) : Option SegmentTree :=
  let t := t.modify id fun _ => s
  match s.parent with
  | some parent => t.checkedChildComplete cut parent id s.timeRange
  | none => some t

def checkedFinalize (t : SegmentTree) (id : Nat) : Option SegmentTree :=
  match t.get? id with
  | none => some t
  | some s =>
    if s.finalized then some t
    else do
      let s ← s.checkedRecordExclusive
      let withParameter :=
        if t.isAsync then s.addParameter "exclusive_duration_millis" (.real (Time.millis s.exclusive)) else s
      return { t.modify id fun _ => withParameter with
        totalTime := ← checkedAdd t.totalTime s.exclusive
        metrics := t.metrics ++ if s.recordMetrics then s.metricRecords else [] }

def checkedFinish (cut : Cutoff) (t : SegmentTree) (b : Backtrace) (id : Nat) (stop : Time) : Option SegmentTree :=
  match t.get? id with
  | none => some t
  | some s =>
    if s.isFinished then some t
    else do
      let s := (← s.checkedStopAt stop).addKindParameters
      let s := if id = 0 then s else addBacktrace b s
      let t ← t.checkedCountUp cut id s
      let t := if t.current = id then { t with current := s.parent.getD 0 } else t
      if s.recordOnFinish then t.checkedFinalize id else return t

def checkedClose (cut : Cutoff) (t : SegmentTree) (b : Backtrace) (stop : Time) : Option SegmentTree := do
  let t ← t.unfinished.foldlM (fun t id => t.checkedFinish cut b id stop) t
  let t ← t.checkedFinish cut b 0 stop
  (List.range t.size).foldlM checkedFinalize t

end SegmentTree

end TraceEngine
