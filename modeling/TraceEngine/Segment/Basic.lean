import TraceEngine.Coverage
import TraceEngine.Identifier
import TraceEngine.Json.Basic
import TraceEngine.Segment.Kind
import TraceEngine.Time

/-!
Segments: timed nodes in the tree of what a transaction did. A segment knows its parent, and keeps account of its
children in two ways. The duration of a child is added to a sum, unless children ran side by side or the child went
on after its parent had ended; then the time range of the child is added to a coverage.
-/
namespace TraceEngine

structure NoticedError where
  kind : String
  message : String
  deriving DecidableEq, Repr

def NoticedError.text (e : NoticedError) : String :=
  s!"NoticedError \x7b error_type: {Text.quoted e.kind}, message: {Text.quoted e.message} \x7d"

def NoticedError.toJson (e : NoticedError) : Json :=
  .object [("error_type",.string e.kind),("message",.string e.message)]

/-- A timing of a finalized segment. A scoped one is attributed to its transaction. -/
structure MetricRecord where
  name : String
  isScoped : Bool
  duration : Time
  exclusive : Time
  deriving DecidableEq, Repr

def MetricRecord.toJson (m : MetricRecord) : Json :=
  .object [("name",.string m.name),("scoped",.bool m.isScoped),("duration",.real (Time.millis m.duration)),
    ("exclusive_duration",.real (Time.millis m.exclusive))]

structure Segment where
  guid : SpanId
  name : String
  kind : SegmentKind := .generic
  parent : Option Nat := none
  start : Time
  stop : Option Time := none
  /-- Set when the segment is finalized. -/
  exclusive : Time := 0
  /-- The sum of the durations of the children that are counted by their durations. -/
  childrenTime : Time := 0
  /-- What the children cover that are counted by their ranges. -/
  childrenRanges : Coverage := []
  /-- How many children run. None of them is counted twice, so that a counter of 32 bits would not wrap around
  before `2 ^ 32` segments run under one parent. -/
  activeChildren : Nat := 0
  /-- Children have run side by side. -/
  concurrentChildren : Bool := false
  /-- The parent counts this segment by its range. -/
  rangeRecorded : Bool := false
  finalized : Bool := false
  /-- False beyond the limit of segments. -/
  inSample : Bool := true
  recordMetrics : Bool := true
  recordScoped : Bool := true
  /-- The segment is finalized as soon as it is finished. -/
  recordOnFinish : Bool := false
  unscopedMetrics : List String := []
  parameters : List (String × Json) := []
  error : Option NoticedError := none

namespace Segment

def isFinished (s : Segment) : Bool := s.stop.isSome

/-- From start to end; empty while the segment runs. -/
def timeRange (s : Segment) : TimeRange := ⟨s.start,s.stop.getD s.start⟩

/-- Zero while the segment runs. -/
def duration (s : Segment) : Time := s.timeRange.stop - s.timeRange.start

def addParameter (s : Segment) (name : String) (value : Json) : Segment :=
  { s with parameters := s.parameters.filter (·.1 != name) ++ [(name,value)] }

def addKindParameters (s : Segment) : Segment :=
  s.kind.parameters.foldl (fun s p => s.addParameter p.1 (.string p.2)) s

/-- A segment beyond the limit is only timed. -/
def excludeFromSample (s : Segment) : Segment := { s with inSample := false, recordOnFinish := true }

/-- No segment ends before it starts. -/
def stopAt (s : Segment) (t : Time) : Segment := { s with stop := some (max t s.start) }

def childStart (s : Segment) : Segment :=
  { s with activeChildren := s.activeChildren + 1,
           concurrentChildren := s.concurrentChildren || decide (0 < s.activeChildren) }

def endedBefore (s : Segment) (t : Time) : Bool := s.stop.any (· < t)

/-- A finished child is counted by its range, not by its duration. -/
def countsRange (s : Segment) (child : TimeRange) : Bool := s.concurrentChildren || s.endedBefore child.stop

def addChildRange (child : TimeRange) (s : Segment) : Segment :=
  { s with childrenRanges := s.childrenRanges.insert child }

def childComplete (child : TimeRange) (s : Segment) : Segment :=
  let s := { s with activeChildren := s.activeChildren - 1 }
  if s.countsRange child then s.addChildRange child
  else { s with childrenTime := s.childrenTime + (child.stop - child.start) }

/-- Counts a child by its range that was counted by its duration. -/
def recountChild (child : TimeRange) (s : Segment) : Segment :=
  { s with childrenTime := s.childrenTime - (child.stop - child.start) }.addChildRange child

def markRangeRecorded (s : Segment) : Segment := { s with rangeRecorded := true }

/-- The part of the duration in which no child is known to have run. -/
def exclusiveTime (s : Segment) : Time := s.duration - s.childrenTime - s.childrenRanges.overlap s.timeRange

def recordExclusive (s : Segment) : Segment := { s with exclusive := s.exclusiveTime, finalized := true }

/-- The metric of the segment's own name, then those of its kind, then those that were asked for. -/
def metricRecords (s : Segment) : List MetricRecord :=
  let record (isScoped : Bool) (name : String) : MetricRecord := ⟨name,isScoped,s.duration,s.exclusive⟩
  (if s.recordScoped then [record true s.name] else []) ++
    (s.name :: (s.kind.rollups ++ s.unscopedMetrics)).map (record false)

def setHostHeader (s : Segment) (host : String) : Segment :=
  match s.kind with
  | .external e =>
    let e := e.withHostHeader host
    { s with kind := .external e, name := e.metricName }
  | _ => s

@[simp] theorem timeRange_stopAt (s : Segment) (t : Time) : (s.stopAt t).timeRange = ⟨s.start,max t s.start⟩ := rfl

@[simp] theorem duration_stopAt (s : Segment) (t : Time) : (s.stopAt t).duration = max t s.start - s.start := rfl

end Segment

/-- What a caller may change in a segment without a change to its times. -/
structure SegmentChange where
  recordMetrics : Option Bool := none
  recordScoped : Option Bool := none
  recordOnFinish : Option Bool := none
  parameters : List (String × Json) := []

def SegmentChange.apply (c : SegmentChange) (s : Segment) : Segment :=
  let s := { s with recordMetrics := c.recordMetrics.getD s.recordMetrics,
                    recordScoped := c.recordScoped.getD s.recordScoped,
                    recordOnFinish := c.recordOnFinish.getD s.recordOnFinish }
  c.parameters.foldl (fun s p => s.addParameter p.1 p.2) s

end TraceEngine
