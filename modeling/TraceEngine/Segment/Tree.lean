import TraceEngine.Segment.Basic

/-!
The segments of a transaction, in the order in which they were started, and the accounts of time that go up the
tree when one of them ends.
-/
namespace TraceEngine

/-- The call frames that are recorded with a segment that takes long. -/
structure Backtrace where
  threshold : Time
  frames : List String

/-- A segment is named by its place; the root stands first. -/
structure SegmentTree where
  segments : Array Segment
  /-- The parent of the next segment for which no other is given. -/
  current : Nat := 0
  /-- Segments have run side by side or have outlived their parents. -/
  isAsync : Bool := false
  /-- The sum of the exclusive times of the finalized segments, however large; `checkedFinalize` has no result where a
  duration cannot hold it. -/
  totalTime : Time := 0
  metrics : List MetricRecord := []

namespace SegmentTree

def size (t : SegmentTree) : Nat := t.segments.size

def get? (t : SegmentTree) (id : Nat) : Option Segment := t.segments[id]?

def modify (t : SegmentTree) (id : Nat) (f : Segment → Segment) : SegmentTree :=
  { t with segments := t.segments.modify id f }

@[simp] theorem size_modify (t : SegmentTree) (id : Nat) (f : Segment → Segment) : (t.modify id f).size = t.size := by
  simp [size,modify]

theorem get?_modify (t : SegmentTree) (id : Nat) (f : Segment → Segment) (i : Nat) :
    (t.modify id f).get? i = if id = i then (t.get? i).map f else t.get? i := by
  simp [get?,modify,Array.getElem?_modify]

/-- Adds a segment under its parent, as the current one or beside it. -/
def start (t : SegmentTree) (s : Segment) (parent : Nat) (becomesCurrent : Bool) : SegmentTree :=
  let id := t.size
  let t := { t with segments := t.segments.push { s with parent := some parent } }
  let t := t.modify parent Segment.childStart
  { t with isAsync := t.isAsync || (t.get? parent).any (·.concurrentChildren),
           current := if becomesCurrent then id else t.current }

/-- Counts a segment that ended late in an ancestor, and makes the ancestor's own child a range, too. -/
def recordDescendant (t : SegmentTree) (descendant : TimeRange) (child ancestor : Nat) : SegmentTree :=
  let t := t.modify ancestor (Segment.addChildRange descendant)
  match t.get? child with
  | some c =>
    if c.rangeRecorded then t
    else (t.modify ancestor (Segment.recountChild c.timeRange)).modify child Segment.markRangeRecorded
  | none => t

/-- Goes up from an ancestor as long as the ancestors had ended before the segment did. Every parent stands
before its children, so the way up ends. -/
def descendantComplete (t : SegmentTree) (descendant : TimeRange) (child ancestor : Nat) : SegmentTree :=
  let t := t.recordDescendant descendant child ancestor
  match t.get? ancestor with
  | some s =>
    match s.parent with
    | some next =>
      if _ : next < ancestor ∧ s.endedBefore descendant.stop = true then
        descendantComplete t descendant ancestor next
      else t
    | none => t
  | none => t
termination_by ancestor
decreasing_by omega

/-- Counts a child that has ended in its parent and, if the parent had ended before, further up. -/
def childComplete (t : SegmentTree) (parent child : Nat) (range : TimeRange) : SegmentTree :=
  match t.get? parent with
  | none => t
  | some p =>
    let t := t.modify parent (Segment.childComplete range)
    let t := if p.countsRange range then t.modify child Segment.markRangeRecorded else t
    if p.isFinished then
      let t := { t with isAsync := true }
      match p.parent with
      | some grandparent => t.descendantComplete range parent grandparent
      | none => t
    else t

/-- Computes the exclusive time of a segment and hands out its metrics, once. -/
def finalize (t : SegmentTree) (id : Nat) : SegmentTree :=
  match t.get? id with
  | none => t
  | some s =>
    if s.finalized then t
    else
      let s := s.recordExclusive
      let withParameter :=
        if t.isAsync then s.addParameter "exclusive_duration_millis" (.real (Time.millis s.exclusive)) else s
      { t.modify id fun _ => withParameter with
        totalTime := t.totalTime + s.exclusive
        metrics := t.metrics ++ if s.recordMetrics then s.metricRecords else [] }

def addBacktrace (b : Backtrace) (s : Segment) : Segment :=
  if b.threshold ≤ s.duration then s.addParameter "backtrace" (Json.strings b.frames) else s

/-- Ends a segment. A segment that has ended before stays as it is. -/
def finish (t : SegmentTree) (b : Backtrace) (id : Nat) (stop : Time) : SegmentTree :=
  match t.get? id with
  | none => t
  | some s =>
    if s.isFinished then t
    else
      let s := (s.stopAt stop).addKindParameters
      let s := if id = 0 then s else addBacktrace b s
      let t := t.modify id fun _ => s
      let t := match s.parent with
        | some parent => t.childComplete parent id s.timeRange
        | none => t
      let t := if t.current = id then { t with current := s.parent.getD 0 } else t
      if s.recordOnFinish then t.finalize id else t

def unfinished (t : SegmentTree) : List Nat :=
  ((List.range t.size).filter fun id => decide (0 < id) && (t.get? id).any (!·.isFinished)).reverse

/-- Ends all that still runs, children before their parents, and finalizes every segment. Which segments run is
looked up once, for no end adds to them, and when they have ended none is left to be ended while the segments are
finalized. That it is the same as a look at each segment when its turn comes is `finish_eq_finishInTurn`. -/
def close (t : SegmentTree) (b : Backtrace) (stop : Time) : SegmentTree :=
  let t := t.unfinished.foldl (fun t id => t.finish b id stop) t
  let t := t.finish b 0 stop
  (List.range t.size).foldl finalize t

end SegmentTree

end TraceEngine
