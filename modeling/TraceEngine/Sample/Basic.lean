import TraceEngine.Sampling.Decision
import TraceEngine.Segment.Basic

/-!
Samples: what is kept of a finished transaction until it is sent.
-/
namespace TraceEngine

structure SampleSegment where
  guid : SpanId
  name : String
  /-- The place of the parent in the sample. -/
  parent : Option Nat
  /-- From the start of the transaction. -/
  startOffset : Time
  duration : Time
  exclusive : Time
  parameters : List (String × Json)
  error : Option NoticedError

structure Sample where
  transactionName : String
  guid : SpanId
  traceId : TraceId
  start : Time
  duration : Time
  totalTime : Time
  sampled : Bool
  priority : Priority
  forcePersist : Bool
  syntheticsId : Option String := none
  intrinsics : List (String × Json) := []
  /-- The root first, parents before their children. -/
  segments : List SampleSegment := []

def SampleSegment.toJson (s : SampleSegment) : Json :=
  .object <|
    [("guid",.string s.guid.text),("name",.string s.name),
     ("parent",Json.ofOption (s.parent.map fun p => .integer p)),
     ("start_offset",.real (Time.millis s.startOffset)),("duration",.real (Time.millis s.duration)),
     ("exclusive_duration",.real (Time.millis s.exclusive))] ++
    (if s.parameters.isEmpty then [] else [("params",.object s.parameters)]) ++
    (s.error.map fun e => ("error",e.toJson)).toList

/-- Times are written in milliseconds; what is empty is left out. -/
def Sample.toJson (s : Sample) : Json :=
  .object <|
    [("transaction_name",.string s.transactionName),("guid",.string s.guid.text),
     ("trace_id",.string s.traceId.text),("start_time",.real (Time.millis s.start)),
     ("duration",.real (Time.millis s.duration)),("total_time",.real (Time.millis s.totalTime)),
     ("sampled",.bool s.sampled),("priority",.real s.priority.value),("force_persist",.bool s.forcePersist)] ++
    (s.syntheticsId.map fun id => ("synthetics_resource_id",.string id)).toList ++
    (if s.intrinsics.isEmpty then [] else [("intrinsics",.object s.intrinsics)]) ++
    [("segments",.array (s.segments.map (·.toJson)))]

end TraceEngine
