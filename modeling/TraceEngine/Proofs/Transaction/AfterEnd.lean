import TraceEngine.Proofs.Segment.Outline
import TraceEngine.Proofs.Transaction.Sampling

/-! What stays when a transaction has ended. Its owner may go on to call what he likes: names, parameters
and flags still change, but no time and no account does. -/
namespace TraceEngine

/-- The times and the accounts of a segment. -/
structure SegmentTiming where
  start : Time
  stop : Option Time
  duration : Time
  exclusive : Time
  childrenTime : Time
  childrenRanges : Coverage

def Segment.timing (s : Segment) : SegmentTiming :=
  ⟨s.start,s.stop,s.duration,s.exclusive,s.childrenTime,s.childrenRanges⟩

theorem Segment.Alike.timing {s s' : Segment} (h : s.Alike s') : s'.timing = s.timing := by
  have hrange : s'.timeRange = s.timeRange := by rw [timeRange,timeRange,h.start,h.stop]
  rw [Segment.timing,Segment.timing,duration,duration,hrange,h.start,h.stop,h.exclusive,h.childrenTime,
    h.childrenRanges]

/-- All that is timed in a tree, segment by segment and in total. -/
structure Timing where
  segments : List SegmentTiming
  totalTime : Time
  isAsync : Bool
  metrics : List MetricRecord

namespace SegmentTree

variable {t t' : SegmentTree}

def timing (t : SegmentTree) : Timing :=
  ⟨t.segments.toList.map (·.timing),t.totalTime,t.isAsync,t.metrics⟩

theorem Touch.timing (h : t.Touch t') : t'.timing = t.timing := by
  cases h with
  | same => rfl
  | move i => rfl
  | @retouch i f hf =>
    have hsegments := map_segments_modify (t := t) (i := i) (f := f) fun s _ => (hf s).timing
    rw [SegmentTree.timing,hsegments]
    rfl

end SegmentTree

namespace Transaction

variable {t u : Transaction}

theorem startNamed_of_ended (hf : t.isFinished = true) (name : String) (o : SegmentOptions) :
    t.startNamed name o = (required "name" name).bind fun _ => .error .transactionFinished := by
  have hstart (n : String) : t.startSegment n .generic o = .error .transactionFinished := if_pos hf
  simp only [startNamed,hstart]
  rfl

theorem startKind_of_ended (hf : t.isFinished = true) (kind : SegmentKind) (o : SegmentOptions) :
    t.startKind kind o = .error .transactionFinished :=
  if_pos hf

theorem Reckoned.finishSegment_of_ended (h : Reckoned t) (hf : t.isFinished = true) (id : ℕ) (stop : Time)
    (frames : List String) : t.finishSegment id stop frames = (t.segment id).map fun _ => t := by
  simp only [finishSegment,segment_eq]
  cases hs : t.tree.get? id with
  | none => rfl
  | some s =>
    have hsame : t.tree.finish (t.backtrace frames) id stop = t.tree := by
      simp only [SegmentTree.finish,hs,h.isFinished_of_ended hf hs,if_true]
    show Except.ok { t with tree := t.tree.finish (t.backtrace frames) id stop } = .ok t
    rw [hsame]

/-- After the end no operation moves the time of the end or anything that is timed in the tree. -/
theorem Reckoned.timing_run (h : Reckoned t) (hf : t.isFinished = true) (ops : List Operation) :
    Reckoned (t.run ops) ∧ (t.run ops).isFinished = true ∧ (t.run ops).stop = t.stop ∧
      (t.run ops).tree.timing = t.tree.timing := by
  refine h.run_induction (P := fun u => u.isFinished = true ∧ u.stop = t.stop ∧ u.tree.timing = t.tree.timing)
    (fun {u} op hu hP => ?_) ⟨hf,rfl,rfl⟩ ops
  obtain ⟨hended,hstop,htiming⟩ := hP
  obtain ⟨htouch,hsame⟩ := hu.touch_of_ended hended op
  exact ⟨(congrArg Option.isSome hsame).trans hended,hsame.trans hstop,htouch.timing.trans htiming⟩

/-- Once a transaction has been told to end and has done so, nothing that is called later changes its
timing: neither its end, nor how many segments it has, nor the times and accounts of any of them, nor the
total, the metrics or whether segments ran side by side. No segment starts any more, the end of a segment
has no effect, and the transaction does not end again. -/
theorem Fresh.timing_after_end (h : t.Fresh) (ops : List Operation) {stop : Time} {frames : List String}
    {chance : Chance} (hends : (t.run ops).finish stop frames chance = (true,u)) (later : List Operation) :
    (u.run later).tree.timing = u.tree.timing ∧ (u.run later).stop = u.stop ∧
      (∀ name o, (u.run later).startNamed name o =
        (required "name" name).bind fun _ => .error .transactionFinished) ∧
      (∀ kind o, (u.run later).startKind kind o = .error .transactionFinished) ∧
      (∀ id now called, (u.run later).finishSegment id now called =
        ((u.run later).segment id).map fun _ => u.run later) ∧
      ∀ now called luck, (u.run later).finish now called luck = (false,u.run later) := by
  have hrun := h.reckoned.run ops
  have hu : ((t.run ops).finish stop frames chance).2 = u := congrArg Prod.snd hends
  have hreckoned : Reckoned u := hu ▸ hrun.apply (.finish stop frames chance)
  have hended : u.isFinished = true := hu ▸ isFinished_finish hrun.rooted stop frames chance
  obtain ⟨hafter,hstill,hstop,htiming⟩ := hreckoned.timing_run hended later
  exact ⟨htiming,hstop,startNamed_of_ended hstill,startKind_of_ended hstill,
    hafter.finishSegment_of_ended hstill,finish_of_ended hstill⟩

/-- A segment that ended late, and one that still runs when the transaction ends. -/
def leftOpen : List Operation := [.startUnder 0 1,.startUnder 1 2,.stopAt 1 3,.stopAt 2 4,.startUnder 0 5]

def belated : List Operation :=
  [.stopAt 3 9,.startUnder 0 9,.changeSegment 3 { recordOnFinish := some true },.noticeError 1 ⟨"kind","text"⟩,
    .finish 9 [] unlikely]

theorem timing_after_end_leftOpen :
    (((plain.run leftOpen).finish 7 [] unlikely).2.run belated).tree.timing =
        ((plain.run leftOpen).finish 7 [] unlikely).2.tree.timing ∧
      (((plain.run leftOpen).finish 7 [] unlikely).2.run belated).stop = some 7 := by
  have hends : (plain.run leftOpen).finish 7 [] unlikely =
      (true,((plain.run leftOpen).finish 7 [] unlikely).2) :=
    Prod.ext (by decide +kernel) rfl
  have hstop : ((plain.run leftOpen).finish 7 [] unlikely).2.stop = some 7 := by decide +kernel
  obtain ⟨htiming,hsame,-⟩ := Fresh.timing_after_end plain_fresh leftOpen hends belated
  exact ⟨htiming,hsame.trans hstop⟩

end Transaction

end TraceEngine
