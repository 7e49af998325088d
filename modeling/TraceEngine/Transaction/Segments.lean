import TraceEngine.Transaction.Basic

/-!
Starting and ending the segments of a transaction, and ending the transaction itself.
-/
namespace TraceEngine

/-- Where and when a segment starts, and the id that it gets. -/
structure SegmentOptions where
  guid : SpanId
  start : Time
  /-- A segment under a parent of its own does not become the current one. -/
  parent : Option Nat := none
  unscopedMetrics : List String := []

namespace Transaction

def limitReached (t : Transaction) : Transaction :=
  if t.overflowReported then t
  else
    { t.debug (s!"Transaction: {t.name} reached the segment limit of {t.settings.segmentLimit}, " ++
        "further segments are only timed") with overflowReported := true }

def startSegment (t : Transaction) (name : String) (kind : SegmentKind) (o : SegmentOptions) :
    Except SegmentFault (Nat × Transaction) :=
  if t.isFinished then .error .transactionFinished
  else
    let parent := o.parent.getD t.tree.current
    match t.tree.get? parent with
    | none => .error (.unknownSegment parent)
    | some _ =>
      let id := t.tree.size
      let s : Segment := { guid := o.guid, name, kind, start := o.start, unscopedMetrics := o.unscopedMetrics }
      let beyond := t.settings.segmentLimit ≤ id
      let s := if beyond then s.excludeFromSample else s
      let t := if beyond then t.limitReached else t
      .ok (id,{ t with tree := t.tree.start s parent o.parent.isNone })

def startNamed (t : Transaction) (name : String) (o : SegmentOptions) : Except SegmentFault (Nat × Transaction) := do
  t.startSegment (← required "name" name) .generic o

def startKind (t : Transaction) (kind : SegmentKind) (o : SegmentOptions) : Except SegmentFault (Nat × Transaction) :=
  t.startSegment (kind.metricName?.getD "") kind o

def backtrace (t : Transaction) (frames : List String) : Backtrace := ⟨t.settings.stackTraceThreshold,frames⟩

/-- Ends a segment; to end it again changes nothing. -/
def finishSegment (t : Transaction) (id : Nat) (stop : Time) (frames : List String) :
    Except SegmentFault Transaction := do
  let _ ← t.segment id
  return { t with tree := t.tree.finish (t.backtrace frames) id stop }

def setCurrent (t : Transaction) (id : Nat) : Except SegmentFault Transaction := do
  let _ ← t.segment id
  return { t with tree := { t.tree with current := id } }

def setHostHeader (t : Transaction) (id : Nat) (host : String) : Except SegmentFault Transaction := do
  let _ ← t.segment id
  return { t with tree := t.tree.modify id fun s => s.setHostHeader host }

def changeSegment (t : Transaction) (id : Nat) (change : SegmentChange) : Except SegmentFault Transaction := do
  let _ ← t.segment id
  return { t with tree := t.tree.modify id change.apply }

/-- Keeps the last error of a segment, for the sake of which the transaction is kept, too. Under high security
errors are not recorded. -/
def noticeError (t : Transaction) (id : Nat) (error : NoticedError) : Except SegmentFault Transaction := do
  let s ← t.segment id
  if t.settings.highSecurity then
    return t.debug
      s!"Segment: {s.name} ignores notice_error for error: {error.kind} because high security is enabled"
  else
    let t := match s.error with
      | some previous => t.debug s!"Segment: {s.name} overwriting previously noticed error: {previous.text}"
      | none => t
    return { t with tree := t.tree.modify id fun s => { s with error := some error }, forcePersist := true }

/-- The warning about a segment that nobody ended. -/
def unfinishedRecord (t : Transaction) (id : Nat) : LogRecord :=
  let s? := t.tree.get? id
  let name := (s?.map (·.name)).getD ""
  let parent := (s?.bind (·.parent)).bind t.tree.get?
  let parentName := (parent.map (·.name)).getD "none"
  ⟨.warn,s!"Segment: {name} was unfinished at the end of transaction. Timing information for this segment's " ++
    s!"parent {parentName} in {t.name} may be inaccurate."⟩

/-- Ends the transaction and with it every segment, and fixes the sampling decision. Tells whether it had not
ended before. All warnings are written at the start: `finishInTurn` writes each when the segment is made to end,
and is proved to be the same. -/
def finish (t : Transaction) (stop : Time) (frames : List String) (chance : Chance) : Bool × Transaction :=
  if t.isFinished then (false,t)
  else
    let records := t.tree.unfinished.map t.unfinishedRecord
    let tree := t.tree.close (t.backtrace frames) stop
    let t := { t.write records with tree, stop := (tree.get? 0).bind (·.stop) }
    (true,(t.decide chance).2)

end Transaction

end TraceEngine
