import TraceEngine.Proofs.Segment.Orderly
import TraceEngine.Proofs.Segment.Standing

/-! Trees without the mark for children side by side and late ends. There every child is counted by its
duration alone. When all segments have ended they are nested, and each instant of the root belongs to
just one segment, the innermost that ran in it. -/
namespace TraceEngine

/-- A segment whose children are counted by their durations, as it is by its parent. -/
structure Segment.Plain (s : Segment) : Prop where
  concurrentChildren : s.concurrentChildren = false
  childrenRanges : s.childrenRanges = []
  rangeRecorded : s.rangeRecorded = false

namespace Segment.Plain

variable {s s' : Segment}

theorem alike (h : s.Plain) (hs : s.Alike s') : s'.Plain :=
  ⟨hs.concurrentChildren.trans h.concurrentChildren,hs.childrenRanges.trans h.childrenRanges,
    hs.rangeRecorded.trans h.rangeRecorded⟩

theorem stopAt (h : s.Plain) (now : Time) : (s.stopAt now).Plain := ⟨h.1,h.2,h.3⟩

theorem recordExclusive (h : s.Plain) : s.recordExclusive.Plain := ⟨h.1,h.2,h.3⟩

theorem countsRange (h : s.Plain) (hn : s.isFinished = false) (r : TimeRange) :
    s.countsRange r = false := by
  have hstop : s.stop = none := by simpa [isFinished] using hn
  simp [Segment.countsRange,h.concurrentChildren,endedBefore,hstop]

theorem childComplete (h : s.Plain) {r : TimeRange} (hr : s.countsRange r = false) :
    (s.childComplete r).Plain := by
  rw [childComplete_eq,hr]
  exact ⟨h.1,h.2,h.3⟩

end Segment.Plain

namespace SegmentTree

variable {t t' : SegmentTree} {now : Time} {b : Backtrace} {i p x : ℕ} {q s s' : Segment}

/-- No child is counted by its range. -/
def AllPlain (t : SegmentTree) : Prop := ∀ i s, t.get? i = some s → s.Plain

theorem AllPlain.touch (h : t.AllPlain) (ht : Touch t t') : t'.AllPlain := by
  intro j u hu
  cases ht with
  | same => exact h _ _ hu
  | move i => exact h _ _ hu
  | retouch i hf =>
    obtain ⟨v,hv,⟨-,rfl⟩ | ⟨-,rfl⟩⟩ := exists_of_modify hu
    · exact (h _ _ hv).alike (hf v)
    · exact h _ _ hv

theorem AllPlain.start (h : t.AllPlain) (b : Bool) (hq : t.get? p = some q)
    (hs : ({ guid := s.guid, name := s.name, start := now } : Segment).Alike s)
    (hasync : (t.start s p b).isAsync = false) : (t.start s p b).AllPlain := by
  intro j u hu
  by_cases hj : j = t.size
  · subst hj
    cases get?_inj (get?_start_size (lt_size_of_get? hq) s b) hu
    exact ⟨hs.concurrentChildren,hs.childrenRanges,hs.rangeRecorded⟩
  · obtain ⟨v,hv,⟨rfl,rfl⟩ | ⟨-,rfl⟩⟩ := exists_of_start (lt_size_of_get? hq) hu hj
    · rw [isAsync_start,hu] at hasync
      exact ⟨(Bool.or_eq_false_iff.mp hasync).2,(h _ _ hv).childrenRanges,(h _ _ hv).rangeRecorded⟩
    · exact h _ _ hv

theorem AllPlain.endSegment (ht : t.Rooted) (h : t.AllPlain) (hs : t.get? i = some s)
    (hs' : (s.stopAt now).Alike s') (hrun : t.parentEnded s = false) :
    (t.endSegment i s').AllPlain := by
  have hcounts : ∀ {p q}, s'.parent = some p → t.get? p = some q →
      q.countsRange s'.timeRange = false := fun hp hq =>
    (h _ _ hq).countsRange (parentEnded_eq_false.mp hrun _ _ (hs'.parent ▸ hp) hq) _
  have hplain : s'.Plain := ((h _ _ hs).stopAt now).alike hs'
  intro j u hu
  by_cases hji : j = i
  · subst hji
    cases hp : s'.parent with
    | none =>
      rw [get?_endSegment_root hs hp,if_pos rfl] at hu
      exact Option.some.inj hu ▸ hplain
    | some p =>
      obtain ⟨q,hq⟩ := ht.exists_parent hs (hs'.parent ▸ hp)
      rw [get?_endSegment hs hp hq (ht.parent_lt hs (hs'.parent ▸ hp)).ne,if_pos rfl] at hu
      cases Option.some.inj hu
      exact ⟨hplain.concurrentChildren,hplain.childrenRanges,
        by simp [hcounts hp hq,hplain.rangeRecorded]⟩
  · obtain ⟨v,hv,⟨hp,rfl⟩ | ⟨-,rfl⟩⟩ := exists_of_endSegment ht hs hs'.parent hu hji
    · exact (h _ _ hv).childComplete (hcounts hp hv)
    · exact h _ _ hv

theorem AllPlain.finalize (h : t.AllPlain) (i : ℕ) : (t.finalize i).AllPlain := by
  intro j u hu
  rcases t.finalize_cases i with he | ⟨s,hs,hn⟩
  · exact h _ _ (he ▸ hu)
  · obtain ⟨v,hv,⟨-,rfl,halike⟩ | ⟨-,rfl⟩⟩ := exists_of_finalize hs hn hu
    · exact (h _ _ hv).recordExclusive.alike halike
    · exact h _ _ hv

/-- An end that leaves no mark goes no further up than to a parent that runs. -/
theorem AllPlain.finish (ht : t.Rooted) (h : t.AllPlain) (hs : t.get? i = some s)
    (hn : s.isFinished = false) (hrun : t.parentEnded s = false) : (t.finish b i now).AllPlain := by
  obtain ⟨s',t',halike,-,ht',he⟩ := finish_of_get? (b := b) hs hn now
  have hplain : t'.AllPlain := by
    intro j u hu
    rw [ht',countUp_eq_endSegment ht hs halike.parent hrun] at hu
    exact h.endSegment ht hs halike hrun _ _ hu
  rw [he]
  split
  · exact hplain.finalize i
  · exact hplain

/-- As long as a tree is not marked, its children are counted by their durations, and results stand. -/
structure Serial (t : SegmentTree) : Prop where
  plain : t.isAsync = false → t.AllPlain
  standing : t.isAsync = false → ∀ p, t.Standing p

theorem Serial.touch (h : t.Serial) (ht : Touch t t') : t'.Serial := by
  have hasync : t'.isAsync = t.isAsync := by cases ht <;> rfl
  exact ⟨fun ha => (h.plain (hasync ▸ ha)).touch ht,
    fun ha p => (h.standing (hasync ▸ ha) p).touch ht⟩

theorem Serial.start (h : t.Serial) (b : Bool) (hq : t.get? p = some q)
    (hs : ({ guid := s.guid, name := s.name, start := now } : Segment).Alike s) :
    (t.start s p b).Serial := by
  have hbefore : (t.start s p b).isAsync = false → t.isAsync = false := by
    rw [isAsync_start]
    exact fun ha => (Bool.or_eq_false_iff.mp ha).1
  exact ⟨fun ha => (h.plain (hbefore ha)).start b hq hs ha,
    fun ha r => (h.standing (hbefore ha) r).start b hq hs.finalized⟩

theorem Serial.finalize (h : t.Serial) (i : ℕ) : (t.finalize i).Serial := by
  have hasync := (t.finalize_rest i).1
  exact ⟨fun ha => (h.plain (hasync ▸ ha)).finalize i,
    fun ha p => (h.standing (hasync ▸ ha) p).finalize i⟩

theorem Serial.finish (ht : t.Rooted) (hr : t.Results) (h : t.Serial) (b : Backtrace) (i : ℕ)
    (now : Time) : (t.finish b i now).Serial := by
  rcases t.finish_cases b i now with he | ⟨s,hs,hn⟩
  · rwa [he]
  · have hasync := (finish_rest b now ht hs hn).1
    refine ⟨fun ha => ?_,fun ha p => ?_⟩
    all_goals obtain ⟨ha,hrun⟩ := Bool.or_eq_false_iff.mp (hasync ▸ ha)
    · exact (h.plain ha).finish ht hs hn hrun
    · exact (h.standing ha p).finish ht hr b now fun hs' _ _ _ => Or.inr (get?_inj hs hs' ▸ hrun)

theorem Serial.close (ht : t.Rooted) (hr : t.Results) (h : t.Serial) (b : Backtrace) (now : Time) :
    (t.close b now).Serial := by
  have hstep : ∀ {t : SegmentTree} (i : ℕ), t.Rooted ∧ t.Results ∧ t.Serial →
      (t.finish b i now).Rooted ∧ (t.finish b i now).Results ∧ (t.finish b i now).Serial := by
    rintro t i ⟨ht,hr,h⟩
    have hc : Changes now False t (t.finish b i now) := changes_finish ht i False.elim
    exact ⟨hc.rooted ht,hc.results ht hr,h.finish ht hr b i now⟩
  rw [close_eq]
  exact List.foldlRecOn _ _ (finishAll_induction (P := fun t => t.Rooted ∧ t.Results ∧ t.Serial)
    ⟨ht,hr,h⟩ hstep).2.2 fun _ hu i _ => hu.finalize i

/-- When all have ended, no child of a tree that counts by durations has outlived its parent. -/
theorem AllPlain.orderly (htime : t.Timely now) (h : t.AllPlain)
    (hall : ∀ {i s}, t.get? i = some s → s.isFinished = true) : t.Orderly := by
  intro c p sc sp e hc hp hsp he
  obtain ⟨x,hx⟩ := Segment.exists_stop (hall hc)
  exact ⟨x,hx,htime.within hc hp hsp hx (h _ _ hc).rangeRecorded he⟩

theorem Orderly.card_own (ht : t.Sound now) (h : t.Orderly) (hs : t.get? p = some s)
    (hf : s.isFinished = true) : (t.own p).card = s.exclusiveTime :=
  (h.nested ht.timely).card_own ht.rooted ht.accounts (ht.timely.disjoint p) hs hf

theorem exists_child_of_mem_ancestors (ht : t.Rooted) {a d : ℕ} (h : a ∈ t.ancestors d) :
    ∃ c sc, t.get? c = some sc ∧ sc.parent = some a ∧ (c = d ∨ c ∈ t.ancestors d) := by
  induction d using Nat.strong_induction_on with
  | _ d ih =>
    obtain ⟨s,p,hs,hp,rfl | hap⟩ := exists_parent_of_mem_ancestors h
    · exact ⟨d,s,hs,hp,Or.inl rfl⟩
    · have hpd : p ∈ t.ancestors d := by
        rw [ht.ancestors_eq hs hp]
        exact List.mem_cons_self
      obtain ⟨c,sc,hc,hpar,rfl | hcp⟩ := ih p (ht.parent_lt hs hp) hap
      · exact ⟨c,sc,hc,hpar,Or.inr hpd⟩
      · exact ⟨c,sc,hc,hpar,Or.inr (ancestors_trans hcp hpd)⟩

theorem Rooted.exists_parent_of_pos (ht : t.Rooted) (hs : t.get? i = some s) (hi : 0 < i) :
    ∃ p, s.parent = some p ∧ p ∈ t.ancestors i := by
  obtain ⟨p,hp⟩ := Option.ne_none_iff_exists'.mp (mt (ht.parent_none hs).mp hi.ne')
  exact ⟨p,hp,by simp [ht.ancestors_eq hs hp]⟩

theorem Rooted.zero_mem_ancestors (ht : t.Rooted) (hs : t.get? i = some s) (hi : 0 < i) :
    0 ∈ t.ancestors i := by
  induction i using Nat.strong_induction_on generalizing s with
  | _ i ih =>
    obtain ⟨p,hp,hpi⟩ := ht.exists_parent_of_pos hs hi
    rcases Nat.eq_zero_or_pos p with rfl | hpos
    · exact hpi
    · obtain ⟨q,hq⟩ := ht.exists_parent hs hp
      exact ancestors_trans (ih p (ht.parent_lt hs hp) hq hpos) hpi

section Nested

variable (ht : t.Sound now) (h : t.AllPlain)
  (hall : ∀ {i s}, t.get? i = some s → s.isFinished = true)

include ht h hall

theorem AllPlain.mem_instants_of_mem_ancestors {a d : ℕ} (had : a ∈ t.ancestors d)
    (hx : x ∈ t.instants d) : x ∈ t.instants a := by
  obtain ⟨sd,hd,hx⟩ := exists_of_mem_instants hx
  obtain ⟨sa,ha⟩ := exists_get?_of_mem_ancestors had
  have hnested := (h.orderly ht.timely hall).nested ht.timely
  have hsub := (hnested.subset_of_mem_ancestors ht.rooted hd had ha (hall ha)).2
  rw [instants_of_get? ha]
  exact hsub hx

theorem AllPlain.mem_busy_children {a d : ℕ} (had : a ∈ t.ancestors d) (hx : x ∈ t.instants d) :
    x ∈ Segment.busy (t.children a) := by
  obtain ⟨c,sc,hc,hp,hcd⟩ := exists_child_of_mem_ancestors ht.rooted had
  refine Segment.mem_busy.mpr ⟨sc,mem_children.mpr ⟨c,hc,hp⟩,?_⟩
  rw [← instants_of_get? hc]
  rcases hcd with rfl | hcd
  · exact hx
  · exact h.mem_instants_of_mem_ancestors ht hall hcd hx

theorem AllPlain.mem_ancestors {a d : ℕ} (hlt : a < d) (hxa : x ∈ t.instants a)
    (hxd : x ∈ t.instants d) : a ∈ t.ancestors d := by
  induction d using Nat.strong_induction_on generalizing a with
  | _ d ih =>
    obtain ⟨sd,hd,-⟩ := exists_of_mem_instants hxd
    obtain ⟨p,hp,hpd⟩ := ht.rooted.exists_parent_of_pos hd (by omega)
    have hxp := h.mem_instants_of_mem_ancestors ht hall hpd hxd
    rcases Nat.lt_trichotomy a p with hap | rfl | hpa
    · exact ancestors_trans (ih p (ht.rooted.parent_lt hd hp) hap hxa hxp) hpd
    · exact hpd
    · -- the child of `p` above `a`, or `a` itself, would share the instant with its sibling `d`
      obtain ⟨c,sc,hc,hpc,hca⟩ := exists_child_of_mem_ancestors ht.rooted (ih a hlt hpa hxp hxa)
      have hcd : c ≠ d := by
        rcases hca with rfl | hca
        · exact hlt.ne
        · exact ((lt_of_mem_ancestors hca).trans hlt).ne
      have hxc : x ∈ t.instants c := by
        rcases hca with rfl | hca
        · exact hxa
        · exact h.mem_instants_of_mem_ancestors ht hall hca hxa
      have hdisjoint :=
        ht.timely.disjoint p c d sc sd hc hd hpc hp hcd (hall hc) (h _ _ hc).rangeRecorded
      rw [instants_of_get? hc] at hxc
      rw [instants_of_get? hd] at hxd
      exact absurd hxd (Finset.disjoint_left.mp hdisjoint hxc)

theorem AllPlain.own_inj {a d : ℕ} (ha : x ∈ t.own a) (hd : x ∈ t.own d) : a = d := by
  have hnot : ∀ {a d : ℕ}, x ∈ t.own a → x ∈ t.own d → ¬ a < d := by
    intro a d ha hd hlt
    obtain ⟨hxa,hbusy⟩ := Finset.mem_sdiff.mp ha
    have hxd := (Finset.mem_sdiff.mp hd).1
    exact hbusy (h.mem_busy_children ht hall (h.mem_ancestors ht hall hlt hxa hxd) hxd)
  exact le_antisymm (not_lt.mp (hnot hd ha)) (not_lt.mp (hnot ha hd))

theorem AllPlain.instants_subset_root (i : ℕ) : t.instants i ⊆ t.instants 0 := by
  intro x hx
  obtain ⟨s,hs,-⟩ := exists_of_mem_instants hx
  rcases Nat.eq_zero_or_pos i with rfl | hi
  · exact hx
  · exact h.mem_instants_of_mem_ancestors ht hall (ht.rooted.zero_mem_ancestors hs hi) hx

/-- Each instant of the root belongs to just one segment: the last to start of those that ran in it. -/
theorem AllPlain.existsUnique_own (hx : x ∈ t.instants 0) : ∃! i, x ∈ t.own i := by
  let ran := (Finset.range t.size).filter fun i => x ∈ t.instants i
  have hzero : 0 ∈ ran := Finset.mem_filter.mpr ⟨Finset.mem_range.mpr ht.rooted.nonempty,hx⟩
  obtain ⟨i,hi,hmax⟩ := ran.exists_max_image id ⟨0,hzero⟩
  have hown : x ∈ t.own i := by
    refine Finset.mem_sdiff.mpr ⟨(Finset.mem_filter.mp hi).2,fun hbusy => ?_⟩
    obtain ⟨sc,hsc,hxc⟩ := Segment.mem_busy.mp hbusy
    obtain ⟨c,hc,hp⟩ := mem_children.mp hsc
    have hran : c ∈ ran := Finset.mem_filter.mpr
      ⟨Finset.mem_range.mpr (lt_size_of_get? hc),(instants_of_get? hc).symm ▸ hxc⟩
    exact absurd (ht.rooted.parent_lt hc hp) (not_lt.mpr (hmax c hran))
  exact ⟨i,hown,fun j hj => h.own_inj ht hall hj hown⟩

theorem AllPlain.sum_card_own :
    ∑ i ∈ Finset.range t.size, (t.own i).card = (t.instants 0).card := by
  have hdisjoint : Set.PairwiseDisjoint (↑(Finset.range t.size)) t.own := fun a _ d _ hne =>
    Finset.disjoint_left.mpr fun x ha hd => hne (h.own_inj ht hall ha hd)
  have hunion : (Finset.range t.size).biUnion t.own = t.instants 0 := by
    ext x
    rw [Finset.mem_biUnion]
    constructor
    · rintro ⟨i,-,hx⟩
      exact h.instants_subset_root ht hall i (Finset.mem_sdiff.mp hx).1
    · intro hx
      obtain ⟨i,hown,-⟩ := h.existsUnique_own ht hall hx
      obtain ⟨s,hs,-⟩ := exists_of_mem_instants (Finset.mem_sdiff.mp hown).1
      exact ⟨i,Finset.mem_range.mpr (lt_size_of_get? hs),hown⟩
  rw [← Finset.card_biUnion hdisjoint,hunion]

end Nested

end SegmentTree

end TraceEngine
