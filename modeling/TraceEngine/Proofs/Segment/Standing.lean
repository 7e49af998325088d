import TraceEngine.Proofs.Segment.Frame

/-! Results that stand. A result is made once, from the accounts that a segment has then; it stands if
the accounts that the segment has later would give the same. -/
namespace TraceEngine

theorem Segment.exclusiveTime_congr {s s' : Segment} (htimes : s'.times = s.times)
    (htime : s'.childrenTime = s.childrenTime) (hranges : s'.childrenRanges = s.childrenRanges) :
    s'.exclusiveTime = s.exclusiveTime := by
  rw [exclusiveTime,exclusiveTime,duration,duration,timeRange_of_times htimes,htime,hranges]

theorem Segment.Alike.exclusiveTime {s s' : Segment} (h : s.Alike s') :
    s'.exclusiveTime = s.exclusiveTime :=
  exclusiveTime_congr h.times_eq h.childrenTime h.childrenRanges

namespace SegmentTree

variable {t t' : SegmentTree} {now : Time} {b : Backtrace} {i p : ℕ} {q s s' : Segment}

/-- The result of a segment is what its accounts give. -/
def Standing (p : ℕ) (t : SegmentTree) : Prop :=
  ∀ s, t.get? p = some s → s.finalized = true → s.exclusive = s.exclusiveTime

theorem Standing.touch (h : t.Standing p) (ht : Touch t t') : t'.Standing p := by
  cases ht with
  | same => exact h
  | move i => exact h
  | retouch i hf =>
    intro u hu hz
    obtain ⟨v,hv,⟨-,rfl⟩ | ⟨-,rfl⟩⟩ := exists_of_modify hu
    · rw [(hf v).exclusive,(hf v).exclusiveTime]
      exact h v hv ((hf v).finalized ▸ hz)
    · exact h u hv hz

theorem Standing.start (h : t.Standing p) (b : Bool) {r : ℕ} (hq : t.get? r = some q)
    (hs : s.finalized = false) : (t.start s r b).Standing p := by
  intro u hu hz
  by_cases hp : p = t.size
  · subst hp
    cases get?_inj (get?_start_size (lt_size_of_get? hq) s b) hu
    simp [hs] at hz
  · obtain ⟨v,hv,⟨-,rfl⟩ | ⟨-,rfl⟩⟩ := exists_of_start (lt_size_of_get? hq) hu hp
    · exact h v hv hz
    · exact h u hv hz

theorem Standing.finalize (h : t.Standing p) (i : ℕ) : (t.finalize i).Standing p := by
  rcases t.finalize_cases i with he | ⟨s,hs,hn⟩
  · rwa [he]
  · intro u hu hz
    obtain ⟨v,hv,⟨-,rfl,halike⟩ | ⟨-,rfl⟩⟩ := exists_of_finalize hs hn hu
    · rw [halike.exclusive,halike.exclusiveTime]
      rfl
    · exact h u hv hz

theorem Standing.foldl_finalize (h : t.Standing p) (l : List ℕ) : (l.foldl SegmentTree.finalize t).Standing p :=
  List.foldlRecOn l SegmentTree.finalize h fun _ hu i _ => hu.finalize i

/-- A result stands when another segment ends, unless that one goes on below it: then its parent has
ended, and its time goes further up. -/
theorem Standing.finish (ht : t.Rooted) (hr : t.Results) (h : t.Standing p) (b : Backtrace)
    (now : Time) (hkeep : ∀ {s q}, t.get? i = some s → s.isFinished = false → t.get? p = some q →
      q.isFinished = true → p ∉ t.ancestors i ∨ t.parentEnded s = false) :
    (t.finish b i now).Standing p := by
  rcases t.finish_cases b i now with he | ⟨s,hs,hn⟩
  · rwa [he]
  · obtain ⟨s',t',halike,-,ht',he⟩ := finish_of_get? (b := b) hs hn now
    have hstanding : t'.Standing p := by
      intro u hu hz
      rw [ht'] at hu
      obtain ⟨v,hv,hvz⟩ := finalized_of_countUp ht hs hn halike hu hz
      have hvf := hr.ended hv hvz
      have hpi : p ≠ i := by
        rintro rfl
        cases get?_inj hs hv
        simp [hn] at hvf
      suffices hsame : (t.countUp i s').get? p = t.get? p by
        exact h u (hsame.symm.trans hu) hz
      rcases hkeep hs hn hv hvf with hnot | hrun
      · exact get?_countUp_of_notMem ht hs hn halike hpi hnot
      · have hpar : s.parent ≠ some p := by
          intro hp
          simp [parentEnded_eq_false.mp hrun p v hp hv] at hvf
        rw [countUp_eq_endSegment ht hs halike.parent hrun] at hu ⊢
        obtain ⟨w,hw,⟨hp,-⟩ | ⟨-,rfl⟩⟩ := exists_of_endSegment ht hs halike.parent hu hpi
        · exact absurd (halike.parent ▸ hp) hpar
        · exact hu.trans hw.symm
    rw [he]
    split
    · exact hstanding.finalize i
    · exact hstanding

/-- If the segment has ended, all below it have. -/
def EndedBelow (p : ℕ) (t : SegmentTree) : Prop :=
  ∀ {q d s}, t.get? p = some q → q.isFinished = true → t.get? d = some s → p ∈ t.ancestors d →
    s.isFinished = true

theorem EndedBelow.finish (ht : t.Rooted) (h : t.EndedBelow p) (b : Backtrace) (now : Time)
    (hlater : ∀ {j v}, t.get? j = some v → i < j → v.isFinished = true) :
    (t.finish b i now).EndedBelow p := by
  intro q d u hq hf hu hpd
  have hl : t.Later (t.finish b i now) := later_finish ht b i now
  obtain ⟨s,hs,hlv⟩ := exists_of_finish ht hu
  rw [hl.ancestors (lt_size_of_get? hs)] at hpd
  refine hlv.isFinished ?_
  by_cases hpi : p = i
  · exact hlater hs (hpi ▸ lt_of_mem_ancestors hpd)
  · obtain ⟨w,hw,hwf⟩ := isFinished_of_finish ht hq hf hpi
    exact h hw hwf hs hpd

/-- A result stands when a tree is closed, unless something ends then below a segment that has ended
before. -/
theorem Standing.close (ht : t.Rooted) (hr : t.Results) (h : t.Standing p) (hb : t.EndedBelow p)
    (b : Backtrace) (now : Time) : (t.close b now).Standing p := by
  rw [close_eq]
  refine Standing.foldl_finalize ?_ _
  refine (finishAll_descending (P := fun t => t.Results ∧ t.Standing p ∧ t.EndedBelow p)
    (fun {u i} hu hP hlater => ?_) ht ⟨hr,h,hb⟩).2.1.2.1
  obtain ⟨hr,h,hb⟩ := hP
  have hchanges : Changes now False u (u.finish b i now) := changes_finish hu i False.elim
  refine ⟨Changes.results hu hr hchanges,h.finish hu hr b now fun hs hn hq hf => Or.inl fun hp => ?_,
    hb.finish hu b now hlater⟩
  simp [hb hq hf hs hp] at hn

theorem Standing.of_pending (h : ∀ s, t.get? p = some s → s.finalized = false) : t.Standing p :=
  fun s hs hz => by simp [h s hs] at hz

theorem Standing.finish_of_pending (ht : t.Rooted) (hr : t.Results)
    (h : ∀ s, t.get? p = some s → s.finalized = false) (b : Backtrace) (i : ℕ) (now : Time) :
    (t.finish b i now).Standing p := by
  by_cases hpi : p = i
  · subst hpi
    refine (Standing.of_pending h).finish ht hr b now fun hs hn hq hf => ?_
    simp [get?_inj hq hs,hn] at hf
  · intro u hu hz
    obtain ⟨v,hv,hvz | ⟨hpi',-⟩⟩ := finalized_of_finish ht hu hz
    · simp [h v hv] at hvz
    · exact absurd hpi' hpi

theorem Standing.close_of_pending (ht : t.Rooted) (hr : t.Results)
    (h : ∀ s, t.get? p = some s → s.finalized = false) (b : Backtrace) (now : Time) :
    (t.close b now).Standing p := by
  by_cases hf : ∃ s, t.get? p = some s ∧ s.isFinished = true
  · obtain ⟨s,hs,hf⟩ := hf
    have hpending : t.Pending p := fun u hu => ⟨h u hu,fun hn => by simp [get?_inj hu hs,hf] at hn⟩
    rw [close_eq]
    exact (Standing.of_pending fun u hu => (hpending.finishAll ht b now u hu).1).foldl_finalize _
  · exact (Standing.of_pending h).close ht hr (fun hq hqf => absurd ⟨_,hq,hqf⟩ hf) b now

end SegmentTree

end TraceEngine
