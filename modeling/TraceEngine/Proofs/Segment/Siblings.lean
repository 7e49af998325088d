import TraceEngine.Proofs.Segment.Finalization
import TraceEngine.Proofs.Segment.Serial

/-! Segments that have all started before one of them ends. Children of one parent run side by side
then, so the parent counts an only child by its duration and several by their ranges. In whatever order
they end, each at its own time, every result is the time in which the segment ran and none of its
children did. -/
namespace TraceEngine.SegmentTree

variable {t t' u u' : SegmentTree} {now : Time} {orderly : Prop} {stop : ℕ → Time} {i p : ℕ}
  {q s s' : Segment}

def AllRunning (t : SegmentTree) : Prop := ∀ i s, t.get? i = some s → s.isFinished = false

/-- A segment with several children knows that they run side by side, and counts by its range each of
them that has ended. -/
structure SideBySide (t : SegmentTree) : Prop where
  concurrent : ∀ {a c p sa sc s}, t.get? a = some sa → t.get? c = some sc → sa.parent = some p →
    sc.parent = some p → a ≠ c → t.get? p = some s → s.concurrentChildren = true
  recorded : ∀ {c p sc s}, t.get? c = some sc → sc.parent = some p → t.get? p = some s →
    s.concurrentChildren = true → sc.isFinished = true → sc.rangeRecorded = true

theorem SideBySide.apart (ht : t.Rooted) (h : t.SideBySide) (p : ℕ) : t.Apart p := by
  intro a c sa sc ha hc hpa hpc hne hf hr
  obtain ⟨s,hs⟩ := ht.exists_parent ha hpa
  simp [h.recorded ha hpa hs (h.concurrent ha hc hpa hpc hne hs) hf] at hr

theorem AllRunning.start (h : t.AllRunning) (b : Bool) (hq : t.get? p = some q)
    (hs : ({ guid := s.guid, name := s.name, start := now } : Segment).Alike s) :
    (t.start s p b).AllRunning := by
  intro j u hu
  by_cases hj : j = t.size
  · subst hj
    cases get?_inj (get?_start_size (lt_size_of_get? hq) s b) hu
    have hstop : s.stop = none := hs.stop
    simp [Segment.isFinished,hstop]
  · obtain ⟨v,hv,htimes,-⟩ := exists_times_of_start (lt_size_of_get? hq) hu hj
    exact (Segment.isFinished_of_times htimes).trans (h j v hv)

theorem concurrentChildren_start (hsums : t.Sums) (hrun : t.AllRunning) {b : Bool} {d : ℕ}
    {sd v : Segment} (hd : t.get? d = some sd) (hpd : sd.parent = some p) (hp : p < t.size)
    (hv : (t.start s p b).get? p = some v) : v.concurrentChildren = true := by
  by_contra hn
  obtain ⟨w,hw,-,hactive⟩ := concurrentChildren_of_start hp hv hp.ne (by simpa using hn)
  obtain ⟨e,he⟩ := hsums.exists_stop hw (hactive rfl) hd hpd
  simpa [Segment.isFinished_of_stop he] using hrun d sd hd

theorem SideBySide.start (ht : t.Rooted) (hsums : t.Sums) (hrun : t.AllRunning) (h : t.SideBySide)
    (b : Bool) (hq : t.get? p = some q)
    (hs : ({ guid := s.guid, name := s.name, start := now } : Segment).Alike s) :
    (t.start s p b).SideBySide := by
  have hp := lt_size_of_get? hq
  constructor
  case concurrent =>
    intro a c r sa sc u ha hc hpa hpc hne hu
    by_cases hat : a = t.size
    · subst hat
      cases get?_inj (get?_start_size hp s b) ha
      obtain rfl : p = r := Option.some.inj hpa
      obtain ⟨vc,hvc,htc,-⟩ := exists_times_of_start hp hc hne.symm
      exact concurrentChildren_start hsums hrun hvc (Segment.parent_of_times htc ▸ hpc) hp hu
    · obtain ⟨va,hva,hta,-⟩ := exists_times_of_start hp ha hat
      have hpva := Segment.parent_of_times hta ▸ hpa
      by_cases hct : c = t.size
      · subst hct
        cases get?_inj (get?_start_size hp s b) hc
        obtain rfl : p = r := Option.some.inj hpc
        exact concurrentChildren_start hsums hrun hva hpva hp hu
      · obtain ⟨vc,hvc,htc,-⟩ := exists_times_of_start hp hc hct
        have hpvc := Segment.parent_of_times htc ▸ hpc
        have hr : r ≠ t.size := ((ht.parent_lt hva hpva).trans (lt_size_of_get? hva)).ne
        obtain ⟨v,hv,⟨-,rfl⟩ | ⟨-,rfl⟩⟩ := exists_of_start hp hu hr
        · simp [Segment.childStart,h.concurrent hva hvc hpva hpvc hne hv]
        · exact h.concurrent hva hvc hpva hpvc hne hv
  case recorded =>
    intro c r sc u hc _ _ _ hf
    simp [hrun.start b hq hs c sc hc] at hf

/-- What is known of siblings stays known if a segment that ends is recorded by a parent with concurrent
children. -/
theorem SideBySide.congr (h : t.SideBySide)
    (hback : ∀ {j u}, t'.get? j = some u → ∃ v, t.get? j = some v ∧ u.parent = v.parent ∧
      u.concurrentChildren = v.concurrentChildren ∧ (u.isFinished = true →
        v.isFinished = true ∧ (v.rangeRecorded = true → u.rangeRecorded = true) ∨
        ∀ {p q}, v.parent = some p → t.get? p = some q → q.concurrentChildren = true →
          u.rangeRecorded = true)) : t'.SideBySide := by
  constructor
  case concurrent =>
    intro a c p sa sc s ha hc hpa hpc hne hs
    obtain ⟨va,hva,hpara,-⟩ := hback ha
    obtain ⟨vc,hvc,hparc,-⟩ := hback hc
    obtain ⟨v,hv,-,hcon,-⟩ := hback hs
    exact hcon.trans (h.concurrent hva hvc (hpara ▸ hpa) (hparc ▸ hpc) hne hv)
  case recorded =>
    intro c p sc s hc hp hs hcon hf
    obtain ⟨vc,hvc,hparc,-,hor⟩ := hback hc
    obtain ⟨v,hv,-,hcv,-⟩ := hback hs
    rcases hor hf with ⟨hvf,hrec⟩ | hnow
    · exact hrec (h.recorded hvc (hparc ▸ hp) hv (hcv ▸ hcon) hvf)
    · exact hnow (hparc ▸ hp) hv (hcv ▸ hcon)

theorem SideBySide.change (ht : t.Rooted) (h : t.SideBySide) (hc : Change now orderly t t')
    (hsize : t'.size = t.size) : t'.SideBySide := by
  refine h.congr fun {j u} hu => ?_
  cases hc with
  | quiet hq =>
    obtain ⟨v,hv,hk⟩ := hq.exists_get? ht hu
    exact ⟨v,hv,Segment.parent_of_times hk.times,hk.concurrentChildren,
      fun hf => Or.inl ⟨Segment.isFinished_of_times hk.times ▸ hf,hk.recorded⟩⟩
  | start => simp [size_start] at hsize
  | @stop i s s' hs hn hs' _ =>
    obtain ⟨r,hr,hcounts⟩ := get?_endSegment_self ht hs hs'.parent
    obtain ⟨v,hv,hpar,-,hcon,hother,hself⟩ := exists_stop_of_endSegment ht hs hs' rfl hr hu
    refine ⟨v,hv,hpar,hcon,fun hf => ?_⟩
    by_cases hji : j = i
    · subst hji
      cases get?_inj hs hv
      refine Or.inr fun hp hq hcq => ?_
      rw [(hself rfl).2,hcounts (hs'.parent.trans hp) hq,Segment.countsRange,hcq,Bool.true_or,Bool.or_true]
    · obtain ⟨hstop,hrec⟩ := hother hji
      exact Or.inl ⟨by rwa [Segment.isFinished,← hstop],fun h => hrec.trans h⟩
  | finalize hs hf hn =>
    obtain ⟨v,hv,⟨-,rfl,halike⟩ | ⟨-,rfl⟩⟩ := exists_of_finalize hs hn hu
    · exact ⟨v,hv,halike.parent,halike.concurrentChildren,
        fun _ => Or.inl ⟨hf,fun h => halike.rangeRecorded.trans h⟩⟩
    · exact ⟨u,hv,rfl,rfl,fun h => Or.inl ⟨h,id⟩⟩

theorem SideBySide.changes (ht : t.Rooted) (h : t.SideBySide) (hc : Changes now orderly t t')
    (hsize : t'.size = t.size) : t'.SideBySide := by
  induction hc with
  | refl => exact h
  | @tail u w hc hlast ih =>
    have hr := Changes.rooted ht hc
    have hl : t.Later u := Changes.later ht hc
    have hl' : u.Later w := hlast.later hr
    have hle := hl.size_le
    have hle' := hl'.size_le
    exact (ih (by omega)).change hr hlast (by omega)

/-- The tree in which every segment has ended at its own time. -/
def stopAll (stop : ℕ → Time) (t : SegmentTree) : SegmentTree :=
  { t with segments := t.segments.mapIdx fun i s => s.stopAt (stop i) }

theorem get?_stopAll (stop : ℕ → Time) (t : SegmentTree) (i : ℕ) :
    (t.stopAll stop).get? i = (t.get? i).map (·.stopAt (stop i)) := by
  simp [stopAll,get?]

@[simp] theorem size_stopAll (stop : ℕ → Time) (t : SegmentTree) : (t.stopAll stop).size = t.size := by
  simp [stopAll,size]

theorem allFinished_stopAll (stop : ℕ → Time) (t : SegmentTree) : (t.stopAll stop).AllFinished := by
  intro i s hs
  rw [get?_stopAll,Option.map_eq_some_iff] at hs
  obtain ⟨v,-,rfl⟩ := hs
  rfl

theorem nested_of_allFinished (hall : t.AllFinished)
    (h : ∀ c < t.size, ∀ p < t.size, t.parent? c = some p → t.instants c ⊆ t.instants p) : t.Nested := by
  intro c p sc sp hc hp hsp _
  have hsub := h c (lt_size_of_get? hc) p (lt_size_of_get? hsp) (parent?_eq_some.mpr ⟨sc,hc,hp⟩)
  rw [instants_of_get? hc,instants_of_get? hsp] at hsub
  exact ⟨hall c sc hc,hsub⟩

/-- Some segments of `t` have ended in `u`, each at its own time, and none has a result. -/
structure Ending (stop : ℕ → Time) (t u : SegmentTree) : Prop where
  rooted : u.Rooted
  accounts : u.Accounts
  sideBySide : u.SideBySide
  pending : ∀ p, u.Pending p
  later : t.Later u
  size : u.size = t.size
  stopped : ∀ {i s e}, u.get? i = some s → s.stop = some e → e = max (stop i) s.start

namespace Ending

theorem finish (h : Ending stop t u) (b : Backtrace) (i : ℕ) : Ending stop t (u.finish b i (stop i)) := by
  have hchanges : Changes (stop i) False u (u.finish b i (stop i)) :=
    changes_finish h.rooted i False.elim
  have hsize := size_finish h.rooted b i (stop i)
  have hl : u.Later (u.finish b i (stop i)) := Changes.later h.rooted hchanges
  refine ⟨hchanges.rooted h.rooted,hchanges.accounts h.rooted h.accounts,
    h.sideBySide.changes h.rooted hchanges hsize,fun p => (h.pending p).finish h.rooted b i _,
    Later.trans h.later hl,hsize.trans h.size,fun {j v e} hv he => ?_⟩
  obtain ⟨s,hs⟩ := exists_get? (hsize ▸ lt_size_of_get? hv)
  obtain ⟨v',hv',hlv,hstop⟩ := Changes.get? h.rooted hchanges hs
  cases get?_inj hv hv'
  rw [hlv.start]
  rcases hstop with hstop | ⟨hnone,hstop⟩
  · exact h.stopped hs (hstop.symm.trans he)
  · have hji : j = i := by
      by_contra hji
      obtain ⟨w,hw,hwf⟩ := isFinished_of_finish h.rooted hv (Segment.isFinished_of_stop he) hji
      cases get?_inj hs hw
      simp [Segment.isFinished,hnone] at hwf
    exact hji ▸ Option.some.inj (he.symm.trans hstop)

theorem sameTimes (h : Ending stop t u) (hall : u.AllFinished) : SameTimes (t.stopAll stop) u where
  size := h.size.trans (size_stopAll stop t).symm
  times i := by
    rw [get?_stopAll]
    cases hs : t.get? i with
    | none =>
      rw [get?_eq_none (h.size ▸ Array.getElem?_eq_none_iff.mp hs)]
      rfl
    | some s =>
      obtain ⟨v,hv,hl⟩ := h.later hs
      obtain ⟨e,he⟩ := Segment.exists_stop (hall i v hv)
      rw [hv]
      refine congrArg some (Segment.times_eq.mpr ⟨hl.parent,hl.start,?_⟩)
      rw [he,h.stopped hv he,hl.start]
      rfl

section Close

variable (h : Ending stop t u) (hended : ∀ {i s}, u.get? i = some s → 0 < i → s.isFinished = true)
  (b : Backtrace)

include h hended

/-- When all but the root have ended, the end of the root completes the times. -/
theorem finishAll : Ending stop t (u.finishAll b (stop 0)) ∧
    SameTimes (t.stopAll stop) (u.finishAll b (stop 0)) := by
  have hlast := h.finish b 0
  have hall : (u.finishAll b (stop 0)).AllFinished := fun i s hs =>
    (changes_finishAll b (stop 0) False h.rooted).2 hs
  rw [← finishAll_eq_finish hended] at hlast
  exact ⟨hlast,hlast.sameTimes hall⟩

theorem size_close : (u.close b (stop 0)).size = t.size := by
  rw [(close_sameTimes u b (stop 0)).size,(h.finishAll hended b).1.size]

theorem exclusive_close (hnested : (t.stopAll stop).Nested)
    (hs : (u.close b (stop 0)).get? p = some s) : s.exclusive = ((t.stopAll stop).own p).card := by
  obtain ⟨hlast,htimes⟩ := h.finishAll hended b
  obtain ⟨v,hv,-⟩ := (close_sameTimes u b (stop 0)).symm.get? hs
  obtain ⟨w,hw,halike⟩ := get?_close b (stop 0) hv
  cases get?_inj hs hw
  rw [if_pos (hlast.pending p v hv).1] at halike
  have hf : v.isFinished = true := (changes_finishAll b (stop 0) False h.rooted).2 hv
  rw [← htimes.own_eq p,(hnested.congr htimes).card_own hlast.rooted hlast.accounts
    (hlast.sideBySide.apart hlast.rooted p) hv hf]
  exact halike.exclusive

end Close

end Ending

end TraceEngine.SegmentTree
