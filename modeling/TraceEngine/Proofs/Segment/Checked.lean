import TraceEngine.Proofs.Coverage.Measure
import Mathlib.Algebra.Order.BigOperators.Group.Finset
import TraceEngine.Proofs.Segment.Confirmed
import TraceEngine.Proofs.Segment.Finalization

/-! The arithmetic of a tree of segments has room as long as the longest duration is not exceeded by the durations of
all segments together: then no step fails to do its sums and differences exactly. There is room in particular if the
longest duration holds the latest time as often as there are segments. -/
namespace TraceEngine

open Time (longest)

theorem Cutoff.sub_eq (cut : Cutoff) {a b : ℕ} (h : b ≤ a) : cut.sub a b = some (a-b) := by
  cases cut with
  | allowed => rfl
  | refused => exact Time.checkedSub_eq h

namespace Segment

variable {s s' : Segment} {child : TimeRange}

/-- The duration of a segment is known from its end on, and is zero before. -/
theorem Later.duration_le (h : s.Later s') : s.duration ≤ s'.duration := by
  cases hf : s.isFinished with
  | true =>
    rw [Segment.duration,Segment.duration,Segment.timeRange_of_times (h.times_eq hf)]
  | false =>
    have hstop : s.stop = none := by simpa [Segment.isFinished] using hf
    simp [Segment.duration,Segment.timeRange,hstop]

theorem checkedStopAt_eq (s : Segment) (t : Time) : s.checkedStopAt t = some (s.stopAt t) := by
  have hlength := Time.checkedSub_eq (le_max_right t s.start)
  simp only [checkedStopAt,TimeRange.checkedLength,timeRange_stopAt,hlength]
  rfl

theorem checkedChildComplete_eq (cut : Cutoff) (hactive : 0 < s.activeChildren) (hchild : child.start ≤ child.stop)
    (hsum : (s.childComplete child).childrenTime ≤ longest) :
    s.checkedChildComplete cut child = some (s.childComplete child) := by
  have hcounts : ({ s with activeChildren := s.activeChildren-1 } : Segment).countsRange child =
      s.countsRange child := rfl
  rw [childComplete_eq] at hsum
  simp only [checkedChildComplete,childComplete,cut.sub_eq (b := 1) hactive,
    Option.bind_eq_bind,Option.bind_some,hcounts]
  cases hc : s.countsRange child with
  | true => rfl
  | false =>
    simp only [hc,Bool.false_eq_true,if_false] at hsum
    simp only [Bool.false_eq_true,if_false,TimeRange.checkedLength,Time.checkedSub_eq hchild,
      Option.bind_some,Time.checkedAdd_eq hsum]
    rfl

theorem checkedRecountChild_eq (cut : Cutoff) (hchild : child.start ≤ child.stop)
    (hle : child.stop-child.start ≤ s.childrenTime) :
    s.checkedRecountChild cut child = some (s.recountChild child) := by
  simp only [checkedRecountChild,TimeRange.checkedLength,Time.checkedSub_eq hchild,Option.bind_eq_bind,
    Option.bind_some,cut.sub_eq hle]
  rfl

theorem checkedRecordExclusive_eq (h : s.childrenRanges.overlap s.timeRange ≤ longest) :
    s.checkedRecordExclusive = some s.recordExclusive := by
  simp only [checkedRecordExclusive,Coverage.checkedOverlap_eq h]
  rfl

end Segment

namespace SegmentTree

variable {t t' : SegmentTree} {now T : Time} {orderly : Prop} {b : Backtrace} {i p : ℕ} {q s s' : Segment}

/-- The longest duration is not exceeded by the durations of all segments together. -/
def Room (t : SegmentTree) : Prop := weigh Segment.duration t ≤ longest

instance (t : SegmentTree) : Decidable t.Room := inferInstanceAs (Decidable (weigh Segment.duration t ≤ longest))

theorem weigh_duration_le (hl : t.Later t') : weigh Segment.duration t ≤ weigh Segment.duration t' := by
  rw [weigh_eq_sum,weigh_eq_sum]
  calc ∑ i ∈ Finset.range t.size, ((t.get? i).map Segment.duration).getD 0
      ≤ ∑ i ∈ Finset.range t.size, ((t'.get? i).map Segment.duration).getD 0 := by
        refine Finset.sum_le_sum fun i hi => ?_
        obtain ⟨s,hs⟩ := exists_get? (Finset.mem_range.mp hi)
        obtain ⟨s',hs',hls⟩ := hl hs
        rw [hs,hs']
        exact hls.duration_le
    _ ≤ ∑ i ∈ Finset.range t'.size, ((t'.get? i).map Segment.duration).getD 0 :=
        Finset.sum_le_sum_of_subset (Finset.range_subset_range.mpr hl.size_le)

/-- Where there is room later there was room before. -/
theorem Room.of_later (h : t'.Room) (hl : t.Later t') : t.Room := (weigh_duration_le hl).trans h

theorem Room.weigh_le (h : t.Room) {w : Segment → ℕ} (hw : ∀ {i s}, t.get? i = some s → w s ≤ s.duration) :
    weigh w t ≤ longest := by
  refine le_trans (List.sum_le_sum fun s hs => ?_) h
  obtain ⟨i,hi⟩ := mem_segments.mp hs
  exact hw hi

theorem Room.duration_le (h : t.Room) (hs : t.get? i = some s) : s.duration ≤ longest := (le_weigh hs).trans h

/-- No segment starts or ends later than `T`, and there is room for `T` as often as there are segments. -/
structure Fits (T : Time) (t : SegmentTree) : Prop where
  start_le : ∀ {i s}, t.get? i = some s → s.start ≤ T
  stop_le : ∀ {i s e}, t.get? i = some s → s.stop = some e → e ≤ T
  size_mul_le : t.size*T ≤ longest

theorem Fits.of_all
    (h : t.segments.toList.all (fun s => decide (s.start ≤ T) && s.stop.all (decide <| · ≤ T)) = true)
    (hroom : t.size*T ≤ longest) : t.Fits T where
  start_le hs := by
    have hall := List.all_eq_true.mp h _ (mem_segments.mpr ⟨_,hs⟩)
    simp only [Bool.and_eq_true,decide_eq_true_eq] at hall
    exact hall.1
  stop_le hs he := by
    have hall := List.all_eq_true.mp h _ (mem_segments.mpr ⟨_,hs⟩)
    simp only [Bool.and_eq_true,he,Option.all_some,decide_eq_true_eq] at hall
    exact hall.2
  size_mul_le := hroom

theorem Fits.duration_le (h : Fits T t) (hs : t.get? i = some s) : s.duration ≤ T := by
  refine (Nat.sub_le _ _).trans ?_
  cases he : s.stop with
  | none => simpa [Segment.timeRange,he] using h.start_le hs
  | some e => simpa [Segment.timeRange,he] using h.stop_le hs he

theorem Fits.room (h : Fits T t) : t.Room := (weigh_le h.duration_le).trans h.size_mul_le

/-- The accounts and the results of a tree agree, and no segment ends before it starts. -/
structure Regular (t : SegmentTree) : Prop where
  rooted : t.Rooted
  accounts : t.Accounts
  results : t.Results
  bounded : t.Bounded
  ordered : ∀ {i s e}, t.get? i = some s → s.stop = some e → s.start ≤ e

theorem Change.stop_eq_none (hc : Change now orderly t t') (hs : t'.get? i = some s) (hi : t.size ≤ i) :
    s.stop = none := by
  have hlt := lt_size_of_get? hs
  cases hc with
  | quiet h =>
    rw [h.size] at hlt
    exact absurd hlt hi.not_gt
  | @start p q v b hq hv _ =>
    obtain rfl : i = t.size := by
      rw [size_start] at hlt
      exact le_antisymm (Nat.le_of_lt_succ hlt) hi
    cases get?_inj (get?_start_size (lt_size_of_get? hq) v b) hs
    exact hv.stop
  | stop =>
    rw [size_endSegment] at hlt
    exact absurd hlt hi.not_gt
  | finalize hk _ hn =>
    rw [(get?_finalize hk hn).1] at hlt
    exact absurd hlt hi.not_gt

theorem Regular.change (h : t.Regular) (hc : Change now orderly t t') : t'.Regular where
  rooted := hc.rooted h.rooted
  accounts := h.accounts.change h.rooted hc
  results := h.results.change h.rooted hc
  bounded := h.bounded.change h.rooted h.results hc
  ordered {i u e} hu he := by
    rcases Nat.lt_or_ge i t.size with hi | hi
    · obtain ⟨s,hs⟩ := exists_get? hi
      obtain ⟨v,hv,hl,hstop⟩ := hc.get? h.rooted hs
      cases get?_inj hu hv
      rw [hl.start]
      rcases hstop with hstop | ⟨-,hstop⟩
      · exact h.ordered hs (hstop ▸ he)
      · cases Option.some.inj (hstop.symm.trans he)
        exact le_max_right _ _
    · simp [hc.stop_eq_none hu hi] at he

theorem Regular.changes (h : t.Regular) (hc : Changes now orderly t t') : t'.Regular := by
  induction hc with
  | refl => exact h
  | tail _ hc ih => exact ih.change hc

theorem Regular.start_le_stop (h : t.Regular) (hs : t.get? i = some s) :
    s.timeRange.start ≤ s.timeRange.stop := by
  cases he : s.stop with
  | none => simp [Segment.timeRange,he]
  | some e => simpa [Segment.timeRange,he] using h.ordered hs he

theorem Regular.activeChildren_pos (h : t.Regular) (hs : t.get? i = some s) (hn : s.isFinished = false)
    (hp : s.parent = some p) (hq : t.get? p = some q) : 0 < q.activeChildren := by
  have hone : running p s = 1 := if_pos ⟨hp,hn⟩
  rw [h.accounts.sums.active hq]
  exact hone.symm.trans_le (le_weigh hs)

/-- The duration of a child that is not counted by its range is in the sum. -/
theorem Regular.duration_le_childrenTime (h : t.Regular) (hs : t.get? i = some s)
    (hf : s.isFinished = true) (hr : s.rangeRecorded = false) (hp : s.parent = some p)
    (hq : t.get? p = some q) : s.duration ≤ q.childrenTime := by
  have hscalar : scalar p s = s.duration := if_pos ⟨hp,hf,hr⟩
  rw [h.accounts.sums.counted hq,← hscalar]
  exact le_weigh hs

theorem Regular.childrenTime_le (h : t.Regular) (hroom : t.Room) (hs : t.get? i = some s) :
    s.childrenTime ≤ longest := by
  rw [h.accounts.sums.counted hs]
  refine hroom.weigh_le fun {j u} hu => ?_
  unfold scalar
  split
  · exact le_rfl
  · exact Nat.zero_le _

theorem Regular.totalTime_le (h : t.Regular) (hroom : t.Room) : t.totalTime ≤ longest := by
  rw [h.results.total]
  refine hroom.weigh_le fun {i s} hs => ?_
  cases hz : s.finalized with
  | true => exact h.bounded i s hs hz
  | false => exact (h.results.pending hs hz).trans_le (Nat.zero_le _)

theorem Regular.overlap_le (h : t.Regular) (hroom : t.Room) (hs : t.get? i = some s) :
    s.childrenRanges.overlap s.timeRange ≤ longest := by
  have hduration : s.childrenRanges.overlap s.timeRange ≤ s.duration :=
    Coverage.overlap_le (h.accounts.ranges.separated hs).ascending s.timeRange
  exact hduration.trans (hroom.duration_le hs)

theorem checkedModify_eq {f : Segment → Segment} {g : Segment → Option Segment} (hs : t.get? i = some s)
    (hg : g s = some (f s)) : t.checkedModify i g = some (t.modify i f) := by
  simp only [checkedModify,hs,hg,Option.map_some,modify_const hs]

section Rising

variable {d c a : ℕ} {sd sc sa : Segment}

theorem checkedRecordDescendant_eq (cut : Cutoff) (h : t.Regular) (hr : t.Rising d c a sd sc) (ha : t.get? a = some sa)
    (r : TimeRange) : t.checkedRecordDescendant cut r c a = some (t.recordDescendant r c a) := by
  have hne : a ≠ c := (h.rooted.parent_lt hr.child hr.parent).ne
  have hc : (t.modify a (Segment.addChildRange r)).get? c = some sc := by
    rw [get?_modify,if_neg hne,hr.child]
  have hsa : (t.modify a (Segment.addChildRange r)).get? a = some (sa.addChildRange r) := by
    rw [get?_modify,if_pos rfl,ha,Option.map_some]
  simp only [checkedRecordDescendant,recordDescendant,hc]
  cases hrec : sc.rangeRecorded with
  | true => rfl
  | false =>
    have hle := h.duration_le_childrenTime hr.child hr.childFinished hrec hr.parent ha
    have hrecount : (sa.addChildRange r).checkedRecountChild cut sc.timeRange =
        some ((sa.addChildRange r).recountChild sc.timeRange) :=
      Segment.checkedRecountChild_eq cut (h.start_le_stop hr.child) hle
    simp only [Bool.false_eq_true,if_false,checkedModify_eq hsa hrecount,Option.bind_eq_bind,
      Option.bind_some]
    rfl

theorem checkedDescendantComplete_eq (cut : Cutoff) (h : t.Regular) (hr : t.Rising d c a sd sc) :
    t.checkedDescendantComplete cut sd.timeRange c a = some (t.descendantComplete sd.timeRange c a) := by
  induction a using Nat.strong_induction_on generalizing t c sc with
  | _ a ih =>
    obtain ⟨sa,ha⟩ := h.rooted.exists_parent hr.child hr.parent
    have hparent : (sa.absorb sd.timeRange sc).parent = sa.parent :=
      (Segment.kept_absorb sd.timeRange sa sc).later.parent
    have hended : (sa.absorb sd.timeRange sc).endedBefore sd.timeRange.stop =
        sa.endedBefore sd.timeRange.stop := by
      rw [Segment.absorb_eq]
      rfl
    rw [checkedDescendantComplete,descendantComplete,checkedRecordDescendant_eq cut h hr ha]
    simp only [Option.bind_eq_bind,Option.bind_some,hr.get?_parent h.rooted ha,hparent,hended]
    cases hnext : sa.parent with
    | none => rfl
    | some next =>
      simp only
      split
      · rename_i hgo
        have hchange : Change 0 False t (t.recordDescendant sd.timeRange c a) := .quiet (hr.quiet ha)
        exact ih next hgo.1 (h.change hchange) (hr.next h.rooted ha hnext (Segment.isFinished_of_endedBefore hgo.2))
      · rfl

end Rising

/-- The end of a segment, counted in its parent and as far up as it goes. -/
theorem checkedChildComplete_eq (cut : Cutoff) (h : t.Regular) (hs : t.get? i = some s) (hn : s.isFinished = false)
    (hs' : (s.stopAt now).Alike s') (hp : s'.parent = some p) (hroom : (t.endSegment i s').Room) :
    (t.modify i fun _ => s').checkedChildComplete cut p i s'.timeRange = some (t.countUp i s') := by
  have hps : s.parent = some p := hs'.parent ▸ hp
  obtain ⟨q,hq⟩ := h.rooted.exists_parent hs hps
  have hlt := h.rooted.parent_lt hs hps
  have hq' : (t.modify i fun _ => s').get? p = some q := by
    rw [get?_modify,if_neg hlt.ne',hq]
  have hend : (t.endSegment i s').Regular := h.change (.stop hs hn hs' False.elim)
  have hrange : s'.timeRange.start ≤ s'.timeRange.stop := by
    rw [Segment.timeRange_of_times hs'.times_eq]
    exact le_max_right now s.start
  have hparent : (t.endSegment i s').get? p = some (q.childComplete s'.timeRange) := by
    rw [get?_endSegment hs hp hq hlt.ne,if_neg hlt.ne,if_pos rfl]
  have hcomplete : q.checkedChildComplete cut s'.timeRange = some (q.childComplete s'.timeRange) :=
    Segment.checkedChildComplete_eq cut (h.activeChildren_pos hs hn hps hq) hrange
      (hend.childrenTime_le hroom hparent)
  have hcount : (if q.countsRange s'.timeRange then
      ((t.modify i fun _ => s').modify p (Segment.childComplete s'.timeRange)).modify i
        Segment.markRangeRecorded
      else (t.modify i fun _ => s').modify p (Segment.childComplete s'.timeRange)) =
        t.endSegment i s' := by
    rw [endSegment_of_parent hp,countChild]
    simp only [hq']
  simp only [checkedChildComplete,countUp,hp,childComplete_of_get? hq',hq',
    checkedModify_eq hq' hcomplete,Option.bind_eq_bind,Option.bind_some,hcount,← endSegment_of_parent hp]
  cases hf : q.isFinished with
  | false => rfl
  | true =>
    cases hnext : q.parent with
    | none => rfl
    | some next =>
      have hrising := rising_endSegment h.rooted hs hn hs' hp hq hf hnext
      have hasync : Change now False (t.endSegment i s') { t.endSegment i s' with isAsync := true } :=
        .quiet (.relabel rfl rfl)
      have hway := checkedDescendantComplete_eq cut (hend.change hasync) hrising
      exact hway

theorem checkedFinalize_eq (h : t.Regular) (hf : ∀ s, t.get? i = some s → s.isFinished = true)
    (hroom : (t.finalize i).Room) : t.checkedFinalize i = some (t.finalize i) := by
  cases hs : t.get? i with
  | none => simp only [checkedFinalize,finalize,hs]
  | some s =>
    cases hz : s.finalized with
    | true => simp only [checkedFinalize,finalize,hs,hz,if_true]
    | false =>
      have hchange : Change 0 False t (t.finalize i) := .finalize hs (hf s hs) hz
      have hbefore : t.Room := hroom.of_later (hchange.later h.rooted)
      have htotal : t.totalTime+s.recordExclusive.exclusive ≤ longest :=
        (get?_finalize hs hz).2.1 ▸ (h.change hchange).totalTime_le hroom
      simp only [checkedFinalize,finalize,hs,hz,Bool.false_eq_true,if_false,
        Segment.checkedRecordExclusive_eq (h.overlap_le hbefore hs),Option.bind_eq_bind,Option.bind_some,
        Time.checkedAdd_eq htotal]
      rfl

/-- What is left to do when a segment has been counted. -/
theorem checkedFinish_of_get? (cut : Cutoff) (b : Backtrace) (hs : t.get? i = some s) (hn : s.isFinished = false)
    (stop : Time) :
    ∃ s' u, (s.stopAt stop).Alike s' ∧ Quiet (t.countUp i s') u ∧
      t.finish b i stop = (if s.recordOnFinish then u.finalize i else u) ∧
      (t.checkedCountUp cut i s' = some (t.countUp i s') →
        t.checkedFinish cut b i stop = if s.recordOnFinish then u.checkedFinalize i else some u) := by
  obtain ⟨ps,hps⟩ := exists_parameters_of_end b i (s.stopAt stop)
  simp only [checkedFinish,finish,hs,hn,Bool.false_eq_true,if_false,Segment.checkedStopAt_eq,
    Option.bind_eq_bind,Option.bind_some]
  generalize (if i = 0 then (s.stopAt stop).addKindParameters
    else addBacktrace b (s.stopAt stop).addKindParameters) = s' at hps ⊢
  have hrecord : s'.recordOnFinish = s.recordOnFinish := by rw [hps]; rfl
  rw [hrecord]
  refine ⟨s',if (t.countUp i s').current = i then { t.countUp i s' with current := s'.parent.getD 0 }
    else t.countUp i s',hps ▸ (s.stopAt stop).alike_parameters ps,?_,rfl,fun hcount => ?_⟩
  · split <;> exact .relabel rfl rfl
  · rw [hcount]
    rfl

theorem checkedFinish_eq (cut : Cutoff) (h : t.Regular) (hroom : (t.finish b i now).Room) :
    t.checkedFinish cut b i now = some (t.finish b i now) := by
  cases hs : t.get? i with
  | none => simp only [checkedFinish,finish,hs]
  | some s =>
    cases hn : s.isFinished with
    | true => simp only [checkedFinish,finish,hs,hn,if_true]
    | false =>
      obtain ⟨s',u,hs',hmove,hfinish,hchecked⟩ := checkedFinish_of_get? cut b hs hn now
      have hend : (t.endSegment i s').Regular := h.change (.stop hs hn hs' False.elim)
      have hquiets : Quiets (t.endSegment i s') u := (quiets_countUp h.rooted hs hn hs').tail hmove
      have hchanges : Changes now False (t.endSegment i s') u := hquiets.changes
      have hu : u.Regular := hend.changes hchanges
      have hfinished : ∀ v, u.get? i = some v → v.isFinished = true := by
        intro v hv
        obtain ⟨w,hw,hwf⟩ := (hquiets.sameTimes hend.rooted).isFinished_of_endSegment h.rooted hs hs'
        exact get?_inj hw hv ▸ hwf
      have hroomu : u.Room := by
        have hlater : Changes now False u (t.finish b i now) := by
          rw [hfinish]
          split
          · exact changes_finalize hfinished
          · exact .refl
        exact hroom.of_later (hlater.later hu.rooted)
      have hcount : t.checkedCountUp cut i s' = some (t.countUp i s') := by
        cases hp : s'.parent with
        | none => simp only [checkedCountUp,countUp,hp]
        | some p =>
          simp only [checkedCountUp,hp]
          exact checkedChildComplete_eq cut h hs hn hs' hp (hroomu.of_later (hchanges.later hend.rooted))
      rw [hchecked hcount,hfinish]
      cases hr : s.recordOnFinish with
      | false => rfl
      | true =>
        rw [hfinish,hr,if_pos rfl] at hroom
        exact checkedFinalize_eq hu hfinished hroom

/-- If no step fails from a state that is as it should be, then no run of steps does. -/
theorem foldlM_eq_some {P : SegmentTree → Prop} {f : SegmentTree → ℕ → SegmentTree}
    {g : SegmentTree → ℕ → Option SegmentTree} (hlater : ∀ {u} i, P u → u.Later (f u i))
    (hkeep : ∀ {u} i, P u → P (f u i)) (hstep : ∀ {u} i, P u → (f u i).Room → g u i = some (f u i))
    (h : P t) (l : List ℕ) (hroom : (l.foldl f t).Room) : l.foldlM g t = some (l.foldl f t) := by
  induction l using List.reverseRecOn with
  | nil => rfl
  | append_singleton l i ih =>
    have hP : P (l.foldl f t) := List.foldlRecOn l f h fun u hu i _ => hkeep i hu
    rw [List.foldl_append,List.foldl_cons,List.foldl_nil] at hroom ⊢
    rw [List.foldlM_append,ih (hroom.of_later (hlater i hP)),Option.bind_eq_bind,Option.bind_some,
      List.foldlM_cons,hstep i hP hroom]
    rfl

theorem Regular.finish (h : t.Regular) (b : Backtrace) (i : ℕ) (now : Time) :
    (t.finish b i now).Regular := by
  have hchanges : Changes now False t (t.finish b i now) := changes_finish h.rooted i False.elim
  exact h.changes hchanges

theorem foldlM_checkedFinalize_eq (h : t.Regular) (hf : ∀ j s, t.get? j = some s → s.isFinished = true)
    (l : List ℕ) (hroom : (l.foldl finalize t).Room) :
    l.foldlM checkedFinalize t = some (l.foldl finalize t) := by
  have hchanges : ∀ {u : SegmentTree} (i : ℕ), (∀ j s, u.get? j = some s → s.isFinished = true) →
      Changes 0 False u (u.finalize i) := fun i hu => changes_finalize (hu i)
  refine foldlM_eq_some (P := fun u => u.Regular ∧ ∀ j s, u.get? j = some s → s.isFinished = true)
    (fun i hu => (hchanges i hu.2).later hu.1.rooted) (fun {u} i hu => ?_)
    (fun i hu => checkedFinalize_eq hu.1 (hu.2 i)) ⟨h,hf⟩ l hroom
  refine ⟨hu.1.changes (hchanges i hu.2),fun j v hv => ?_⟩
  obtain ⟨w,hw,htimes⟩ := (finalize_sameTimes u i).symm.get? hv
  exact (Segment.isFinished_of_times htimes).symm.trans (hu.2 j w hw)

theorem checkedClose_eq (cut : Cutoff) (h : t.Regular) (hroom : (t.close b now).Room) :
    t.checkedClose cut b now = some (t.close b now) := by
  obtain ⟨hend,hfinished⟩ := changes_finishAll b now False h.rooted
  have hall : (t.finishAll b now).Regular := h.changes hend
  have hunfinished : (t.unfinished.foldl (fun t id => t.finish b id now) t).Regular :=
    List.foldlRecOn t.unfinished _ h fun u hu i _ => hu.finish b i now
  have hresults : Changes now False (t.finishAll b now) (t.close b now) := changes_foldl_finalize hfinished
  have hroomall : (t.finishAll b now).Room := hroom.of_later (hresults.later hall.rooted)
  have hbelow : t.unfinished.foldlM (fun t id => t.checkedFinish cut b id now) t =
      some (t.unfinished.foldl (fun t id => t.finish b id now) t) :=
    foldlM_eq_some (fun i hu => later_finish hu.rooted b i now) (fun i hu => hu.finish b i now)
      (fun i hu => checkedFinish_eq cut hu) h _ (hroomall.of_later (later_finish hunfinished.rooted b 0 now))
  have hroot : (t.unfinished.foldl (fun t id => t.finish b id now) t).checkedFinish cut b 0 now =
      some (t.finishAll b now) := checkedFinish_eq cut hunfinished hroomall
  have hlast : (List.range (t.finishAll b now).size).foldlM checkedFinalize (t.finishAll b now) =
      some (t.close b now) := foldlM_checkedFinalize_eq hall (fun _ _ => hfinished) _ hroom
  simp only [checkedClose,hbelow,Option.bind_eq_bind,Option.bind_some,hroot,hlast]

end SegmentTree

end TraceEngine
