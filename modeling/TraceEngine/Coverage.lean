import TraceEngine.Time

/-!
Time covered by ranges. A coverage is a list of ranges in ascending order with a gap between neighbours;
a range is added by coalescing it with every range that it meets or touches.
-/
namespace TraceEngine

/-- The times from `start` on and before `stop`. -/
structure TimeRange where
  start : Nat
  stop : Nat
  deriving DecidableEq, Repr

namespace TimeRange

def isEmpty (r : TimeRange) : Bool := decide (r.stop ≤ r.start)

def shared (r s : TimeRange) : Nat := min r.stop s.stop - max r.start s.start

end TimeRange

abbrev Coverage := List TimeRange

namespace Coverage

/-- Adds a range. The ranges that end before it and those that start after it stay. -/
def insert (c : Coverage) (r : TimeRange) : Coverage :=
  if r.isEmpty then c
  else
    let earlier := c.takeWhile fun s => s.stop < r.start
    let rest := c.dropWhile fun s => s.stop < r.start
    let touched := rest.takeWhile fun s => s.start ≤ r.stop
    let later := rest.dropWhile fun s => s.start ≤ r.stop
    let merged : TimeRange :=
      match touched.head?, touched.getLast? with
      | some first, some last => ⟨min first.start r.start,max last.stop r.stop⟩
      | _, _ => r
    earlier ++ merged :: later

/-- The length of the part of a range that is covered. A search by halving finds the same two places, for there is one
`Boundary` only. -/
def overlap (c : Coverage) (r : TimeRange) : Nat :=
  ((c.dropWhile fun s => s.stop ≤ r.start).takeWhile fun s => s.start < r.stop).foldr (r.shared · + ·) 0

/-- The overlap, added up from the earliest shared part on with durations of which there is a longest. -/
def checkedOverlap (c : Coverage) (r : TimeRange) : Option Time :=
  ((c.dropWhile fun s => s.stop ≤ r.start).takeWhile fun s => s.start < r.stop).foldlM
    (fun sum s => Time.checkedAdd sum (r.shared s)) 0

@[simp] theorem insert_of_isEmpty {c : Coverage} {r : TimeRange} (h : r.isEmpty = true) : c.insert r = c := by
  simp [insert,h]

@[simp] theorem overlap_nil (r : TimeRange) : overlap [] r = 0 := rfl

end Coverage

end TraceEngine
