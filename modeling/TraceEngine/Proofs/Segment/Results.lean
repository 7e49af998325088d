import TraceEngine.Proofs.Segment.Timely

/-! The results of segments: what an exclusive time is made of, when it is recorded, and their total.
With them a tree is sound. -/
namespace TraceEngine.SegmentTree

variable {t t' : SegmentTree} {before now : Time} {orderly : Prop} {i p : ℕ} {q s s' : Segment}

/-- The nanoseconds in which the segment in a place ran. -/
def instants (t : SegmentTree) (i : ℕ) : Finset ℕ := ((t.get? i).map (·.timeRange.instants)).getD ∅

theorem instants_of_get? (hs : t.get? i = some s) : t.instants i = s.timeRange.instants := by
  simp [instants,hs]

theorem exists_of_mem_instants {c x : ℕ} (h : x ∈ t.instants c) :
    ∃ s, t.get? c = some s ∧ x ∈ s.timeRange.instants := by
  cases hs : t.get? c with
  | none => simp [instants,hs] at h
  | some s => exact ⟨s,rfl,instants_of_get? hs ▸ h⟩

/-- The children that a segment counts by their durations. -/
def counted (t : SegmentTree) (p : ℕ) : Finset ℕ :=
  (Finset.range t.size).filter fun c =>
    (t.get? c).any fun s => decide (s.parent = some p) && s.isFinished && !s.rangeRecorded

theorem mem_counted {c : ℕ} : c ∈ t.counted p ↔
    ∃ s, t.get? c = some s ∧ s.parent = some p ∧ s.isFinished = true ∧ s.rangeRecorded = false := by
  simp only [counted,Finset.mem_filter,Finset.mem_range,Option.any_eq_true,Bool.and_eq_true,
    decide_eq_true_eq,Bool.not_eq_true',and_assoc]
  exact ⟨And.right,fun ⟨s,hs,h⟩ => ⟨lt_size_of_get? hs,s,hs,h⟩⟩

theorem Sums.childrenTime_eq (h : t.Sums) (hs : t.get? p = some s) :
    s.childrenTime = ∑ c ∈ t.counted p, (t.instants c).card := by
  rw [h.counted hs,weigh_eq_sum,SegmentTree.counted,Finset.sum_filter]
  refine Finset.sum_congr rfl fun c hc => ?_
  obtain ⟨sc,hsc⟩ := exists_get? (Finset.mem_range.mp hc)
  rw [hsc,instants_of_get? hsc,← Segment.duration_eq_card]
  simp only [Option.map_some,Option.getD_some,scalar,Option.any_some]
  refine if_congr ?_ rfl rfl
  simp [and_assoc]

theorem Accounts.exclusiveTime_eq (ha : t.Accounts) (hs : t.get? p = some s) :
    s.exclusiveTime = s.duration-∑ c ∈ t.counted p, (t.instants c).card-
      (s.childrenRanges.instants ∩ s.timeRange.instants).card := by
  rw [Segment.exclusiveTime,ha.sums.childrenTime_eq hs,
    Coverage.overlap_eq_card (ha.ranges.separated hs).ascending]

theorem exists_result_of_start (hp : p < t.size) {b : Bool} {j : ℕ} {u : Segment}
    (hu : (t.start s p b).get? j = some u) (hj : j ≠ t.size) :
    ∃ v, t.get? j = some v ∧ v.Later u ∧ u.finalized = v.finalized ∧ u.exclusive = v.exclusive := by
  obtain ⟨v,hv,⟨-,rfl⟩ | ⟨-,rfl⟩⟩ := exists_of_start hp hu hj
  · exact ⟨v,hv,Segment.later_childStart v,rfl,rfl⟩
  · exact ⟨u,hv,Segment.Later.refl u,rfl,rfl⟩

theorem exists_result_of_endSegment (ht : t.Rooted) (hs : t.get? i = some s) (hn : s.isFinished = false)
    (hs' : (s.stopAt now).Alike s') {j : ℕ} {u : Segment} (hu : (t.endSegment i s').get? j = some u) :
    ∃ v, t.get? j = some v ∧ v.Later u ∧ u.finalized = v.finalized ∧ u.exclusive = v.exclusive := by
  have hl : t.Later (t.endSegment i s') := later_endSegment ht hs hn hs'
  by_cases hj : j = i
  · subst hj
    obtain ⟨r,hr,-⟩ := get?_endSegment_self ht hs hs'.parent
    obtain ⟨v,hv,hlv⟩ := hl hs
    cases get?_inj hu hr
    cases get?_inj hu hv
    exact ⟨s,hs,hlv,hs'.finalized,hs'.exclusive⟩
  · obtain ⟨v,hv,⟨-,rfl⟩ | ⟨-,rfl⟩⟩ := exists_of_endSegment ht hs hs'.parent hu hj
    · refine ⟨v,hv,Segment.later_childComplete _ v,?_⟩
      rw [Segment.childComplete_eq]
      exact ⟨rfl,rfl⟩
    · exact ⟨_,hv,Segment.Later.refl _,rfl,rfl⟩

/-- A segment that has a result had it before a change, unless the change is that it gets one. -/
theorem Change.finalized (ht : t.Rooted) (h : Change now orderly t t') (hs' : t'.get? i = some s')
    (hf : s'.finalized = true) :
    ∃ s, t.get? i = some s ∧ s.Later s' ∧ (s.finalized = true ∨
      s.finalized = false ∧ s.isFinished = true ∧ s.recordExclusive.Alike s') := by
  cases h with
  | quiet hq =>
    obtain ⟨s,hs,hk⟩ := hq.exists_get? ht hs'
    exact ⟨s,hs,hk.later,Or.inl (hk.finalized ▸ hf)⟩
  | @start p q u b hq hu _ =>
    by_cases hi : i = t.size
    · subst hi
      cases get?_inj (get?_start_size (lt_size_of_get? hq) u b) hs'
      have hn : u.finalized = false := hu.finalized
      simp [hn] at hf
    · obtain ⟨v,hv,hl,he,-⟩ := exists_result_of_start (lt_size_of_get? hq) hs' hi
      exact ⟨v,hv,hl,Or.inl (he ▸ hf)⟩
  | stop hk hn hu _ =>
    obtain ⟨v,hv,hl,he,-⟩ := exists_result_of_endSegment ht hk hn hu hs'
    exact ⟨v,hv,hl,Or.inl (he ▸ hf)⟩
  | @finalize k u hk huf hn =>
    obtain ⟨v,hv,⟨-,rfl,hu'⟩ | ⟨-,rfl⟩⟩ := exists_of_finalize hk hn hs'
    · exact ⟨v,hv,(Segment.later_recordExclusive hn).trans hu'.later,Or.inr ⟨hn,huf,hu'⟩⟩
    · exact ⟨s',hv,Segment.Later.refl s',Or.inl hf⟩

@[simp] theorem totalTime_recordDescendant (t : SegmentTree) (r : TimeRange) (c a : ℕ) :
    (t.recordDescendant r c a).totalTime = t.totalTime := by
  unfold recordDescendant
  simp only
  split
  · split <;> rfl
  · rfl

@[simp] theorem totalTime_endSegment (t : SegmentTree) (i : ℕ) (s : Segment) :
    (t.endSegment i s).totalTime = t.totalTime := by
  unfold endSegment countChild
  split
  · rfl
  · split
    · rfl
    · simp only
      split <;> rfl

/-- The total is the sum of all results, and a segment without one has no exclusive time yet. -/
structure Results (t : SegmentTree) : Prop where
  total : t.totalTime = weigh (·.exclusive) t
  ended : ∀ {i s}, t.get? i = some s → s.finalized = true → s.isFinished = true
  pending : ∀ {i s}, t.get? i = some s → s.finalized = false → s.exclusive = 0

theorem Results.congr (h : t.Results) (hsize : t'.size = t.size) (htotal : t'.totalTime = t.totalTime)
    (hback : ∀ {j s'}, t'.get? j = some s' → ∃ s, t.get? j = some s ∧ s.Later s' ∧
      s'.finalized = s.finalized ∧ s'.exclusive = s.exclusive) :
    t'.Results where
  total := by
    rw [htotal,h.total]
    refine (weigh_congr hsize fun j => ?_).symm
    cases hs' : t'.get? j with
    | none => rw [get?_eq_none (hsize ▸ Array.getElem?_eq_none_iff.mp hs')]
    | some s' =>
      obtain ⟨s,hs,-,-,he⟩ := hback hs'
      rw [hs,Option.map_some,Option.map_some,he]
  ended hs' hf := by
    obtain ⟨s,hs,hl,he,-⟩ := hback hs'
    exact hl.isFinished (h.ended hs (he ▸ hf))
  pending hs' hf := by
    obtain ⟨s,hs,-,he,hx⟩ := hback hs'
    exact hx.trans (h.pending hs (he ▸ hf))

theorem Quiet.totalTime (h : Quiet t t') : t'.totalTime = t.totalTime := by
  cases h with
  | relabel _ h => exact h
  | retouch => rfl
  | absorb => exact totalTime_recordDescendant t _ _ _

theorem Results.start (h : t.Results) (b : Bool) (hq : t.get? p = some q)
    (hs : ({ guid := s.guid, name := s.name, start := now } : Segment).Alike s) :
    (t.start s p b).Results := by
  have hp := lt_size_of_get? hq
  have hnew := get?_start_size hp s b
  have hfinalized : s.finalized = false := hs.finalized
  have hexclusive : s.exclusive = 0 := hs.exclusive
  constructor
  case total =>
    rw [weigh_push (size_start t s p b) hnew fun j hj => ?_]
    · change t.totalTime = weigh (·.exclusive) t+s.exclusive
      rw [hexclusive,Nat.add_zero,h.total]
    · obtain ⟨u,hu⟩ := exists_get? (t := t.start s p b) (i := j) (by rw [size_start]; omega)
      obtain ⟨v,hv,-,-,he⟩ := exists_result_of_start hp hu hj.ne
      rw [hu,hv,Option.map_some,Option.map_some,he]
  case ended =>
    intro j u hu hf
    by_cases hj : j = t.size
    · subst hj
      cases get?_inj hnew hu
      simp [hfinalized] at hf
    · obtain ⟨v,hv,hl,he,-⟩ := exists_result_of_start hp hu hj
      exact hl.isFinished (h.ended hv (he ▸ hf))
  case pending =>
    intro j u hu hf
    by_cases hj : j = t.size
    · subst hj
      cases get?_inj hnew hu
      exact hexclusive
    · obtain ⟨v,hv,-,he,hx⟩ := exists_result_of_start hp hu hj
      exact hx.trans (h.pending hv (he ▸ hf))

theorem Results.finalize (h : t.Results) (hs : t.get? i = some s) (hf : s.isFinished = true)
    (hn : s.finalized = false) : (t.finalize i).Results := by
  obtain ⟨hsize,htotal,s',hs',hget⟩ := get?_finalize hs hn
  have hexclusive : s'.exclusive = s.exclusiveTime := hs'.exclusive
  constructor
  case total =>
    have hsum := weigh_update (w := (·.exclusive)) hsize hs ((hget i).trans (if_pos rfl)) fun j hj => by
      rw [hget,if_neg hj]
    simp only [h.pending hs hn,hexclusive,Nat.add_zero] at hsum
    rw [htotal,h.total,hsum]
  case ended =>
    intro j u hu huf
    obtain ⟨v,hv,⟨-,rfl,hu'⟩ | ⟨-,rfl⟩⟩ := exists_of_finalize hs hn hu
    · rwa [Segment.isFinished,hu'.stop]
    · exact h.ended hv huf
  case pending =>
    intro j u hu huf
    obtain ⟨v,hv,⟨-,rfl,hu'⟩ | ⟨-,rfl⟩⟩ := exists_of_finalize hs hn hu
    · have hfinalized : u.finalized = true := hu'.finalized
      simp [hfinalized] at huf
    · exact h.pending hv huf

theorem Results.change (ht : t.Rooted) (h : t.Results) (hc : Change now orderly t t') : t'.Results := by
  cases hc with
  | quiet hq =>
    refine h.congr hq.size hq.totalTime fun {j u} hu => ?_
    obtain ⟨v,hv,hk⟩ := hq.exists_get? ht hu
    exact ⟨v,hv,hk.later,hk.finalized,hk.exclusive⟩
  | start b hq hs _ => exact h.start b hq hs
  | @stop i s s' hs hn hs' _ =>
    exact h.congr (size_endSegment t i s') (totalTime_endSegment t i s') fun {j u} hu =>
      exists_result_of_endSegment ht hs hn hs' hu
  | finalize hs hf hn => exact h.finalize hs hf hn

theorem Changes.results (ht : t.Rooted) (h : t.Results) (hc : Changes now orderly t t') : t'.Results := by
  induction hc with
  | refl => exact h
  | tail hc' hc ih => exact ih.change (Changes.rooted ht hc') hc

/-- The accounts, the results and the times of a tree agree, at a time of the clock. -/
structure Sound (now : Time) (t : SegmentTree) : Prop where
  rooted : t.Rooted
  accounts : t.Accounts
  results : t.Results
  timely : t.Timely now

theorem Sound.mono (h : t.Sound before) (hle : before ≤ now) : t.Sound now :=
  ⟨h.rooted,h.accounts,h.results,h.timely.mono hle⟩

theorem Sound.change (h : t.Sound before) (hle : before ≤ now) (hc : Change now orderly t t') :
    t'.Sound now where
  rooted := hc.rooted h.rooted
  accounts := h.accounts.change h.rooted hc
  results := h.results.change h.rooted hc
  timely := h.timely.change h.rooted h.accounts hle hc

theorem Sound.changes (h : t.Sound before) (hle : before ≤ now) (hc : Changes now orderly t t') :
    t'.Sound now := by
  induction hc with
  | refl => exact h.mono hle
  | tail _ hc ih => exact ih.change le_rfl hc

end TraceEngine.SegmentTree
