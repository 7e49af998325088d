import TraceEngine.Proofs.Segment.Results

/-! Nested trees, in which a segment that has ended encloses all that ran below it. There a result
leaves out just the time in which the children ran, if no child that is counted by its duration shares
time with another. -/
namespace TraceEngine.SegmentTree

variable {t : SegmentTree} {p : ℕ} {s : Segment}

/-- Every segment that has ended encloses its children. -/
def Nested (t : SegmentTree) : Prop :=
  ∀ c p sc sp, t.get? c = some sc → sc.parent = some p → t.get? p = some sp → sp.isFinished = true →
    sc.isFinished = true ∧ sc.timeRange.instants ⊆ sp.timeRange.instants

/-- The children that a segment counts by their durations share no time with their siblings. -/
def Apart (p : ℕ) (t : SegmentTree) : Prop :=
  ∀ a c sa sc, t.get? a = some sa → t.get? c = some sc → sa.parent = some p → sc.parent = some p →
    a ≠ c → sa.isFinished = true → sa.rangeRecorded = false →
      Disjoint sa.timeRange.instants sc.timeRange.instants

/-- The instants of a segment in which none of its children ran. -/
def own (t : SegmentTree) (i : ℕ) : Finset ℕ := t.instants i \ Segment.busy (t.children i)

theorem SameTimes.own_eq {t' : SegmentTree} (h : SameTimes t t') (i : ℕ) : t'.own i = t.own i := by
  have hinstants : t'.instants i = t.instants i := by
    cases hs : t.get? i with
    | none => rw [instants,instants,hs,get?_eq_none (h.size ▸ Array.getElem?_eq_none_iff.mp hs)]
    | some s =>
      obtain ⟨s',hs',htimes⟩ := h.get? hs
      rw [instants_of_get? hs,instants_of_get? hs',Segment.timeRange_of_times htimes]
  rw [own,own,hinstants,h.busy_children]

namespace Nested

theorem congr {t' : SegmentTree} (h : t.Nested) (htimes : SameTimes t t') : t'.Nested := by
  intro c p sc sp hc hp hsp hf
  obtain ⟨vc,hvc,htc⟩ := htimes.symm.get? hc
  obtain ⟨vp,hvp,htp⟩ := htimes.symm.get? hsp
  rw [← Segment.isFinished_of_times htc,← Segment.timeRange_of_times htc,← Segment.timeRange_of_times htp]
  exact h c p vc vp hvc ((Segment.parent_of_times htc).trans hp) hvp
    ((Segment.isFinished_of_times htp).trans hf)

theorem subset_of_mem_ancestors (ht : t.Rooted) (h : t.Nested) {a d : ℕ} {sa sd : Segment}
    (hd : t.get? d = some sd) (had : a ∈ t.ancestors d) (ha : t.get? a = some sa)
    (hf : sa.isFinished = true) :
    sd.isFinished = true ∧ sd.timeRange.instants ⊆ sa.timeRange.instants := by
  induction d using Nat.strong_induction_on generalizing sd with
  | _ d ih =>
    obtain ⟨sd₂,p,hd₂,hp,hap⟩ := exists_parent_of_mem_ancestors had
    cases get?_inj hd hd₂
    obtain ⟨sp,hsp⟩ := ht.exists_parent hd hp
    rcases hap with rfl | hap
    · exact h d a sd sa hd hp ha hf
    · obtain ⟨hpf,hsub⟩ := ih p (ht.parent_lt hd hp) hsp hap
      obtain ⟨hdf,hsub'⟩ := h d p sd sp hd hp hsp hpf
      exact ⟨hdf,hsub'.trans hsub⟩

theorem exists_of_traced (ht : t.Rooted) (hr : t.Ranges) (h : t.Nested) {x : ℕ} (hx : t.Traced p x) :
    ∃ c sc, t.get? c = some sc ∧ sc.parent = some p ∧ sc.rangeRecorded = true ∧
      x ∈ sc.timeRange.instants := by
  obtain ⟨c,sc,d,sd,hc,hp,hrec,hd,-,rfl | hcd,hx⟩ := hx
  · exact ⟨c,sc,hc,hp,hrec,get?_inj hd hc ▸ hx⟩
  · exact ⟨c,sc,hc,hp,hrec,(h.subset_of_mem_ancestors ht hd hcd hc (hr.recorded hc hrec)).2 hx⟩

theorem busy_children_subset (h : t.Nested) (hs : t.get? p = some s) (hf : s.isFinished = true) :
    Segment.busy (t.children p) ⊆ s.timeRange.instants := by
  intro x hx
  obtain ⟨sc,hsc,hx⟩ := Segment.mem_busy.mp hx
  obtain ⟨c,hc,hp⟩ := mem_children.mp hsc
  exact (h c p sc s hc hp hs hf).2 hx

theorem busy_children (ht : t.Rooted) (hr : t.Ranges) (h : t.Nested) (hs : t.get? p = some s)
    (hf : s.isFinished = true) : Segment.busy (t.children p) =
      (t.counted p).biUnion t.instants ∪ s.childrenRanges.instants ∩ s.timeRange.instants := by
  ext x
  simp only [Segment.mem_busy,mem_children,Finset.mem_union,Finset.mem_biUnion,Finset.mem_inter]
  constructor
  · rintro ⟨sc,⟨c,hc,hp⟩,hx⟩
    obtain ⟨hcf,hsub⟩ := h c p sc s hc hp hs hf
    cases hrec : sc.rangeRecorded with
    | true => exact Or.inr ⟨hr.covers hc hp hs hrec hx,hsub hx⟩
    | false => exact Or.inl ⟨c,mem_counted.mpr ⟨sc,hc,hp,hcf,hrec⟩,(instants_of_get? hc).symm ▸ hx⟩
  · rintro (⟨c,hc,hx⟩ | ⟨hx,-⟩)
    · obtain ⟨sc,hsc,hp,-⟩ := mem_counted.mp hc
      exact ⟨sc,⟨c,hsc,hp⟩,instants_of_get? hsc ▸ hx⟩
    · obtain ⟨c,sc,hc,hp,-,hx⟩ := h.exists_of_traced ht hr (hr.traced hs hx)
      exact ⟨sc,⟨c,hc,hp⟩,hx⟩

/-- The result of an ended segment and the time in which its children ran make up its duration. -/
theorem exclusiveTime_add (ht : t.Rooted) (ha : t.Accounts) (h : t.Nested) (hapart : t.Apart p)
    (hs : t.get? p = some s) (hf : s.isFinished = true) :
    s.exclusiveTime+(Segment.busy (t.children p)).card = s.duration := by
  have hcounted : ∀ a ∈ t.counted p, ∀ c ∈ t.counted p, a ≠ c →
      Disjoint (t.instants a) (t.instants c) := by
    intro a ha c hc hne
    obtain ⟨sa,hsa,hpa,hfa,hra⟩ := mem_counted.mp ha
    obtain ⟨sc,hsc,hpc,-⟩ := mem_counted.mp hc
    rw [instants_of_get? hsa,instants_of_get? hsc]
    exact hapart a c sa sc hsa hsc hpa hpc hne hfa hra
  have hranges : Disjoint ((t.counted p).biUnion t.instants)
      (s.childrenRanges.instants ∩ s.timeRange.instants) := by
    refine Finset.disjoint_left.mpr fun x hx hx' => ?_
    obtain ⟨a,hacounted,hxa⟩ := Finset.mem_biUnion.mp hx
    obtain ⟨sa,hsa,hpa,hfa,hra⟩ := mem_counted.mp hacounted
    obtain ⟨c,sc,hc,hp,hr,hxc⟩ :=
      h.exists_of_traced ht ha.ranges (ha.ranges.traced hs (Finset.mem_inter.mp hx').1)
    have hne : a ≠ c := by
      rintro rfl
      cases get?_inj hc hsa
      simp [hr] at hra
    rw [instants_of_get? hsa] at hxa
    exact Finset.disjoint_left.mp (hapart a c sa sc hsa hc hpa hp hne hfa hra) hxa hxc
  have hle : (Segment.busy (t.children p)).card ≤ s.duration := by
    rw [Segment.duration_eq_card]
    exact Finset.card_le_card (h.busy_children_subset hs hf)
  have hcard := congrArg Finset.card (h.busy_children ht ha.ranges hs hf)
  rw [Finset.card_union_of_disjoint hranges,Finset.card_biUnion hcounted] at hcard
  rw [ha.exclusiveTime_eq hs,Nat.sub_sub,← hcard]
  exact Nat.sub_add_cancel hle

theorem card_own (ht : t.Rooted) (ha : t.Accounts) (h : t.Nested) (hapart : t.Apart p)
    (hs : t.get? p = some s) (hf : s.isFinished = true) : (t.own p).card = s.exclusiveTime := by
  rw [own,instants_of_get? hs,Finset.card_sdiff_of_subset (h.busy_children_subset hs hf),
    ← Segment.duration_eq_card,← h.exclusiveTime_add ht ha hapart hs hf,Nat.add_sub_cancel]

end Nested

end TraceEngine.SegmentTree
