import TraceEngine.Proofs.Segment.Path

/-! What the accounts of a segment say about its children. The children that run are counted, the
durations of the others are summed up unless their ranges are recorded, and recorded ranges lie in a
separated coverage in which nothing lies that did not run in or below a recorded child. -/
namespace TraceEngine.SegmentTree

variable {t t' : SegmentTree} {now : Time} {orderly : Prop} {i p : ℕ} {q s s' : Segment}

/-- One for a child that runs. -/
def running (p : ℕ) (s : Segment) : ℕ := if s.parent = some p ∧ s.isFinished = false then 1 else 0

/-- The duration of a child that has ended and whose range is not recorded. -/
def scalar (p : ℕ) (s : Segment) : ℕ :=
  if s.parent = some p ∧ s.isFinished = true ∧ s.rangeRecorded = false then s.duration else 0

/-- An instant in which a segment ran that is a recorded child of `p` or stands below one. -/
def Traced (t : SegmentTree) (p x : ℕ) : Prop :=
  ∃ c sc d sd, t.get? c = some sc ∧ sc.parent = some p ∧ sc.rangeRecorded = true ∧ t.get? d = some sd ∧
    sd.isFinished = true ∧ (c = d ∨ c ∈ t.ancestors d) ∧ x ∈ sd.timeRange.instants

/-- The sums in every segment agree with its children. -/
structure Sums (t : SegmentTree) : Prop where
  active : ∀ {p s}, t.get? p = some s → s.activeChildren = weigh (running p) t
  counted : ∀ {p s}, t.get? p = some s → s.childrenTime = weigh (scalar p) t

/-- The ranges in every segment agree with what ran below it. -/
structure Ranges (t : SegmentTree) : Prop where
  separated : ∀ {p s}, t.get? p = some s → s.childrenRanges.Separated
  recorded : ∀ {c s}, t.get? c = some s → s.rangeRecorded = true → s.isFinished = true
  covers : ∀ {c p sc s}, t.get? c = some sc → sc.parent = some p → t.get? p = some s →
    sc.rangeRecorded = true → sc.timeRange.instants ⊆ s.childrenRanges.instants
  traced : ∀ {p s x}, t.get? p = some s → x ∈ s.childrenRanges.instants → t.Traced p x

theorem Traced.later {p x : ℕ} (hl : t.Later t') (h : t.Traced p x) : t'.Traced p x := by
  obtain ⟨c,sc,d,sd,hc,hp,hr,hd,hf,hcd,hx⟩ := h
  obtain ⟨sc',hc',hlc⟩ := hl hc
  obtain ⟨sd',hd',hld⟩ := hl hd
  refine ⟨c,sc',d,sd',hc',hlc.parent.trans hp,hlc.recorded hr,hd',hld.isFinished hf,?_,?_⟩
  · rwa [hl.ancestors (lt_size_of_get? hd)]
  · rwa [Segment.timeRange_of_times (hld.times_eq hf)]

theorem running_of_times (h : s'.times = s.times) : running p s' = running p s := by
  obtain ⟨h1,-,h3⟩ := Segment.times_eq.mp h
  exact if_congr (by simp only [Segment.isFinished,h1,h3]) rfl rfl

theorem scalar_of_times (h : s'.times = s.times) (hr : s'.rangeRecorded = s.rangeRecorded) :
    scalar p s' = scalar p s := by
  have hrange := Segment.timeRange_of_times h
  obtain ⟨h1,-,h3⟩ := Segment.times_eq.mp h
  exact if_congr (by simp only [Segment.isFinished,h1,h3,hr])
    (by rw [Segment.duration,Segment.duration,hrange]) rfl

theorem running_eq_zero (h : s.isFinished = true) : running p s = 0 := by
  simp [running,h]

theorem scalar_eq_zero (h : s.isFinished = false) : scalar p s = 0 := by
  simp [scalar,h]

theorem running_of_parent_ne (h : s.parent ≠ some p) : running p s = 0 := by
  simp [running,h]

theorem scalar_of_parent_ne (h : s.parent ≠ some p) : scalar p s = 0 := by
  simp [scalar,h]

theorem weigh_eq_zero {w : Segment → ℕ} (h : ∀ {i s}, t.get? i = some s → w s = 0) : weigh w t = 0 := by
  rw [weigh_eq_sum]
  refine Finset.sum_eq_zero fun i hi => ?_
  obtain ⟨s,hs⟩ := exists_get? (Finset.mem_range.mp hi)
  rw [hs,Option.map_some,h hs,Option.getD_some]

theorem length_filter_children (t : SegmentTree) (p : ℕ) :
    ((t.children p).filter (!·.isFinished)).length = weigh (running p) t := by
  have h := t.sum_children p (!·.isFinished) fun _ => 1
  rw [List.map_const',List.sum_replicate,smul_eq_mul,mul_one] at h
  rw [h]
  simp only [Bool.not_eq_true']
  rfl

theorem sum_duration_children (t : SegmentTree) (p : ℕ) :
    (((t.children p).filter fun c => c.isFinished && !c.rangeRecorded).map (·.duration)).sum =
      weigh (scalar p) t := by
  rw [t.sum_children p]
  simp only [Bool.and_eq_true,Bool.not_eq_true']
  rfl

/-- Equal accounts. -/
structure SameAccounts (s s' : Segment) : Prop where
  times : s'.times = s.times
  childrenTime : s'.childrenTime = s.childrenTime
  childrenRanges : s'.childrenRanges = s.childrenRanges
  activeChildren : s'.activeChildren = s.activeChildren
  rangeRecorded : s'.rangeRecorded = s.rangeRecorded

theorem SameAccounts.refl (s : Segment) : SameAccounts s s := ⟨rfl,rfl,rfl,rfl,rfl⟩

theorem SameAccounts.symm (h : SameAccounts s s') : SameAccounts s' s :=
  ⟨h.times.symm,h.childrenTime.symm,h.childrenRanges.symm,h.activeChildren.symm,h.rangeRecorded.symm⟩

theorem SameAccounts.trans {s'' : Segment} (h : SameAccounts s s') (h' : SameAccounts s' s'') :
    SameAccounts s s'' :=
  ⟨h'.times.trans h.times,h'.childrenTime.trans h.childrenTime,h'.childrenRanges.trans h.childrenRanges,
    h'.activeChildren.trans h.activeChildren,h'.rangeRecorded.trans h.rangeRecorded⟩

theorem SameAccounts.of_alike (h : s.Alike s') : SameAccounts s s' :=
  ⟨h.times_eq,h.childrenTime,h.childrenRanges,h.activeChildren,h.rangeRecorded⟩

theorem Sums.congr (ha : t.Sums) (hsize : t'.size = t.size)
    (h : ∀ {j s'}, t'.get? j = some s' → ∃ s, t.get? j = some s ∧ SameAccounts s s') : t'.Sums := by
  have hweigh : ∀ w : Segment → ℕ, (∀ {s s'}, SameAccounts s s' → w s' = w s) →
      weigh w t' = weigh w t := by
    intro w hw
    refine weigh_congr hsize fun j => ?_
    cases hs' : t'.get? j with
    | none => rw [get?_eq_none (hsize ▸ Array.getElem?_eq_none_iff.mp hs')]
    | some s' =>
      obtain ⟨s,hs,hsame⟩ := h hs'
      rw [hs,Option.map_some,Option.map_some,hw hsame]
  constructor
  case active =>
    intro p s' hs'
    obtain ⟨s,hs,hsame⟩ := h hs'
    rw [hsame.activeChildren,ha.active hs,hweigh _ fun h => running_of_times h.times]
  case counted =>
    intro p s' hs'
    obtain ⟨s,hs,hsame⟩ := h hs'
    rw [hsame.childrenTime,ha.counted hs,hweigh _ fun h => scalar_of_times h.times h.rangeRecorded]

theorem Ranges.congr (ha : t.Ranges) (hl : t.Later t')
    (h : ∀ {j s'}, t'.get? j = some s' → ∃ s, t.get? j = some s ∧ SameAccounts s s') : t'.Ranges := by
  constructor
  case separated =>
    intro p s' hs'
    obtain ⟨s,hs,hsame⟩ := h hs'
    exact hsame.childrenRanges ▸ ha.separated hs
  case recorded =>
    intro c s' hs' hr
    obtain ⟨s,hs,hsame⟩ := h hs'
    rw [Segment.isFinished_of_times hsame.times]
    exact ha.recorded hs (hsame.rangeRecorded ▸ hr)
  case covers =>
    intro c p sc' s' hc' hp hs' hr
    obtain ⟨sc,hc,hsc⟩ := h hc'
    obtain ⟨s,hs,hsame⟩ := h hs'
    rw [Segment.timeRange_of_times hsc.times,hsame.childrenRanges]
    exact ha.covers hc (Segment.parent_of_times hsc.times ▸ hp) hs (hsc.rangeRecorded ▸ hr)
  case traced =>
    intro p s' x hs' hx
    obtain ⟨s,hs,hsame⟩ := h hs'
    exact (ha.traced hs (hsame.childrenRanges ▸ hx)).later hl

theorem exists_times_of_start (hp : p < t.size) {s : Segment} {b : Bool} {j : ℕ} {u : Segment}
    (hu : (t.start s p b).get? j = some u) (hj : j ≠ t.size) :
    ∃ v, t.get? j = some v ∧ u.times = v.times ∧ u.rangeRecorded = v.rangeRecorded ∧
      u.childrenRanges = v.childrenRanges ∧ u.childrenTime = v.childrenTime := by
  obtain ⟨v,hv,⟨-,rfl⟩ | ⟨-,rfl⟩⟩ := exists_of_start hp hu hj
  · exact ⟨v,hv,rfl,rfl,rfl,rfl⟩
  · exact ⟨u,hv,rfl,rfl,rfl,rfl⟩

theorem Sums.start (ht : t.Rooted) (ha : t.Sums) (b : Bool) (hq : t.get? p = some q)
    (hs : ({ guid := s.guid, name := s.name, start := now } : Segment).Alike s) :
    (t.start s p b).Sums := by
  have ht' := ht.start b hq hs
  have hp := lt_size_of_get? hq
  have hnew := get?_start_size hp s b
  have hstop : s.stop = none := hs.stop
  have hweigh : ∀ {w : Segment → ℕ}, (∀ v : Segment, w v.childStart = w v) →
      weigh w (t.start s p b) = weigh w t+w { s with parent := some p } := by
    intro w hw
    refine weigh_push (size_start t s p b) hnew fun j hj => ?_
    rw [get?_start hp,if_neg hj.ne]
    split
    · simp [Function.comp_def,hw]
    · rfl
  -- the new segment has no children
  have hnone : ∀ {w : Segment → ℕ}, (∀ v : Segment, v.parent ≠ some t.size → w v = 0) →
      weigh w (t.start s p b) = 0 := by
    intro w hw
    refine weigh_eq_zero fun {i u} hu => hw u fun hpar => ?_
    have h1 := ht'.parent_lt hu hpar
    have h2 := lt_size_of_get? hu
    rw [size_start] at h2
    omega
  constructor
  case active =>
    intro j u hu
    by_cases hj : j = t.size
    · subst hj
      cases get?_inj hnew hu
      rw [hnone fun v hv => running_of_parent_ne hv]
      exact hs.activeChildren
    · rw [hweigh fun v => rfl]
      obtain ⟨v,hv,⟨rfl,rfl⟩ | ⟨hjp,rfl⟩⟩ := exists_of_start hp hu hj
      · simp [Segment.childStart,ha.active hv,running,Segment.isFinished,hstop]
      · simp [ha.active hv,running,Ne.symm hjp]
  case counted =>
    intro j u hu
    by_cases hj : j = t.size
    · subst hj
      cases get?_inj hnew hu
      rw [hnone fun v hv => scalar_of_parent_ne hv]
      exact hs.childrenTime
    · obtain ⟨v,hv,-,-,-,htime⟩ := exists_times_of_start hp hu hj
      rw [hweigh fun v => rfl,htime,ha.counted hv,
        scalar_eq_zero (s := { s with parent := some p }) (by simp [Segment.isFinished,hstop]),
        Nat.add_zero]

theorem Ranges.start (ht : t.Rooted) (ha : t.Ranges) (b : Bool) (hq : t.get? p = some q)
    (hs : ({ guid := s.guid, name := s.name, start := now } : Segment).Alike s) :
    (t.start s p b).Ranges := by
  have ht' := ht.start b hq hs
  have hl : t.Later (t.start s p b) := later_start ht b hq hs
  have hp := lt_size_of_get? hq
  have hnew := get?_start_size hp s b
  have hrecorded : s.rangeRecorded = false := hs.rangeRecorded
  have hranges : s.childrenRanges = [] := hs.childrenRanges
  constructor
  case separated =>
    intro j u hu
    by_cases hj : j = t.size
    · subst hj
      cases get?_inj hnew hu
      exact hranges.symm ▸ Coverage.separated_nil
    · obtain ⟨v,hv,-,-,hr,-⟩ := exists_times_of_start hp hu hj
      exact hr ▸ ha.separated hv
  case recorded =>
    intro j u hu hr
    by_cases hj : j = t.size
    · subst hj
      cases get?_inj hnew hu
      simp [hrecorded] at hr
    · obtain ⟨v,hv,htimes,hrec,-⟩ := exists_times_of_start hp hu hj
      rw [Segment.isFinished_of_times htimes]
      exact ha.recorded hv (hrec ▸ hr)
  case covers =>
    intro c a sc u hc hca hu hr
    have hcn : c ≠ t.size := by
      rintro rfl
      cases get?_inj hnew hc
      simp [hrecorded] at hr
    have hc' := lt_size_of_get? hc
    rw [size_start] at hc'
    have han : a ≠ t.size := by
      have := ht'.parent_lt hc hca
      omega
    obtain ⟨vc,hvc,htimes,hrec,-⟩ := exists_times_of_start hp hc hcn
    obtain ⟨va,hva,-,-,hranges,-⟩ := exists_times_of_start hp hu han
    rw [Segment.timeRange_of_times htimes,hranges]
    exact ha.covers hvc (Segment.parent_of_times htimes ▸ hca) hva (hrec ▸ hr)
  case traced =>
    intro j u x hu hx
    by_cases hj : j = t.size
    · subst hj
      cases get?_inj hnew hu
      simp [hranges] at hx
    · obtain ⟨v,hv,-,-,hr,-⟩ := exists_times_of_start hp hu hj
      exact (ha.traced hv (hr ▸ hx)).later hl

theorem keeps_childComplete (r : TimeRange) (v : Segment) : (v.childComplete r).times = v.times ∧
    (v.childComplete r).rangeRecorded = v.rangeRecorded := by
  rw [Segment.childComplete_eq]
  exact ⟨rfl,rfl⟩

theorem exists_times_of_endSegment (ht : t.Rooted) (hs : t.get? i = some s)
    (hp : s'.parent = s.parent) {j : ℕ} {u : Segment} (hu : (t.endSegment i s').get? j = some u)
    (hj : j ≠ i) :
    ∃ v, t.get? j = some v ∧ u.times = v.times ∧ u.rangeRecorded = v.rangeRecorded := by
  obtain ⟨v,hv,⟨-,rfl⟩ | ⟨-,rfl⟩⟩ := exists_of_endSegment ht hs hp hu hj
  · exact ⟨v,hv,keeps_childComplete _ v⟩
  · exact ⟨_,hv,rfl,rfl⟩

/-- Only the segment itself has another weight, if the weight depends on the times and the mark. -/
theorem weigh_endSegment (ht : t.Rooted) (hs : t.get? i = some s) (hp : s'.parent = s.parent)
    {u : Segment} (hu : (t.endSegment i s').get? i = some u) {w : Segment → ℕ}
    (hw : ∀ {v v' : Segment}, v'.times = v.times → v'.rangeRecorded = v.rangeRecorded → w v' = w v) :
    weigh w (t.endSegment i s')+w s = weigh w t+w u := by
  refine weigh_update (size_endSegment t i s') hs hu fun j hj => ?_
  cases hv : (t.endSegment i s').get? j with
  | none =>
    have hj' : t.size ≤ j := size_endSegment t i s' ▸ Array.getElem?_eq_none_iff.mp hv
    rw [get?_eq_none hj']
  | some v =>
    obtain ⟨v₀,hv₀,htimes,hrec⟩ := exists_times_of_endSegment ht hs hp hv hj
    rw [hv₀,Option.map_some,Option.map_some,hw htimes hrec]

theorem Ranges.rangeRecorded_eq_false (ha : t.Ranges) (hs : t.get? i = some s)
    (hn : s.isFinished = false) :
    s.rangeRecorded = false := by
  by_contra h
  simp [ha.recorded hs (by simpa using h)] at hn

theorem Sums.endSegment (ht : t.Rooted) (ha : t.Sums) (hs : t.get? i = some s)
    (hn : s.isFinished = false) (hr : s.rangeRecorded = false) (hs' : (s.stopAt now).Alike s') :
    (t.endSegment i s').Sums := by
  have hpar : s'.parent = s.parent := hs'.parent
  have hfin := Segment.isFinished_of_stopAt hs'
  have hself : s.parent ≠ some i := fun h => absurd (ht.parent_lt hs h) (lt_irrefl _)
  obtain ⟨r,hu,hcounts⟩ := get?_endSegment_self ht hs hpar
  rw [show s'.rangeRecorded = false from hs'.rangeRecorded.trans hr] at hcounts
  have hrunning : ∀ p, weigh (running p) (t.endSegment i s')+running p s = weigh (running p) t := by
    intro p
    rw [weigh_endSegment ht hs hpar hu fun h _ => running_of_times h,
      running_eq_zero (s := { s' with rangeRecorded := r }) hfin,Nat.add_zero]
  have hscalar : ∀ p, weigh (scalar p) (t.endSegment i s') =
      weigh (scalar p) t+scalar p { s' with rangeRecorded := r } := by
    intro p
    rw [← weigh_endSegment ht hs hpar hu fun h h' => scalar_of_times h h',scalar_eq_zero hn,Nat.add_zero]
  constructor
  case active =>
    intro j v hv
    have hsum := hrunning j
    by_cases hj : j = i
    · subst hj
      cases get?_inj hu hv
      rw [running_of_parent_ne hself,Nat.add_zero] at hsum
      rw [hsum,← ha.active hs]
      exact hs'.activeChildren
    · obtain ⟨v₀,hv₀,⟨hp,rfl⟩ | ⟨hp,rfl⟩⟩ := exists_of_endSegment ht hs hpar hv hj
      · have hone : running j s = 1 := by simp [running,← hpar,hp,hn]
        rw [Segment.childComplete_eq,ha.active hv₀]
        simp only
        omega
      · rw [running_of_parent_ne (hpar ▸ hp),Nat.add_zero] at hsum
        rw [hsum,ha.active hv₀]
  case counted =>
    intro j v hv
    rw [hscalar]
    by_cases hj : j = i
    · subst hj
      cases get?_inj hu hv
      rw [scalar_of_parent_ne (s := { s' with rangeRecorded := r }) (hpar.symm ▸ hself),Nat.add_zero,
        ← ha.counted hs]
      exact hs'.childrenTime
    · obtain ⟨v₀,hv₀,⟨hp,rfl⟩ | ⟨hp,rfl⟩⟩ := exists_of_endSegment ht hs hpar hv hj
      · have hr : r = v₀.countsRange s'.timeRange := by simpa using hcounts hp hv₀
        rw [Segment.childComplete_eq,← ha.counted hv₀]
        cases hc : v₀.countsRange s'.timeRange with
        | true => simp [scalar,hr,hc]
        | false =>
          have hdur : scalar j { s' with rangeRecorded := r } = s'.duration :=
            if_pos ⟨hp,hfin,hr.trans hc⟩
          simp [hdur,Segment.duration]
      · rw [scalar_of_parent_ne (s := { s' with rangeRecorded := r }) hp,ha.counted hv₀,Nat.add_zero]

/-- The end of a segment adds its range to its parent, if at all. -/
theorem childrenRanges_endSegment (ht : t.Rooted) (hs : t.get? i = some s)
    (hs' : (s.stopAt now).Alike s') {j : ℕ} {v : Segment} (hv : (t.endSegment i s').get? j = some v) :
    ∃ v₀, t.get? j = some v₀ ∧ (v.childrenRanges = v₀.childrenRanges ∨
      s'.parent = some j ∧ v₀.countsRange s'.timeRange = true ∧
        v.childrenRanges = v₀.childrenRanges.insert s'.timeRange) := by
  by_cases hj : j = i
  · subst hj
    obtain ⟨r,hu,-⟩ := get?_endSegment_self ht hs hs'.parent
    cases get?_inj hu hv
    exact ⟨s,hs,Or.inl hs'.childrenRanges⟩
  · obtain ⟨v₀,hv₀,⟨hp,rfl⟩ | ⟨-,rfl⟩⟩ := exists_of_endSegment ht hs hs'.parent hv hj
    · refine ⟨v₀,hv₀,?_⟩
      rw [Segment.childComplete_eq]
      cases hc : v₀.countsRange s'.timeRange with
      | true => exact Or.inr ⟨hp,rfl,rfl⟩
      | false => exact Or.inl rfl
    · exact ⟨_,hv₀,Or.inl rfl⟩

theorem Ranges.subset_endSegment (ht : t.Rooted) (ha : t.Ranges) (hs : t.get? i = some s)
    (hs' : (s.stopAt now).Alike s') {j : ℕ} {v : Segment} (hv : (t.endSegment i s').get? j = some v) :
    ∃ v₀, t.get? j = some v₀ ∧ v₀.childrenRanges.instants ⊆ v.childrenRanges.instants := by
  obtain ⟨v₀,hv₀,he | ⟨-,-,he⟩⟩ := childrenRanges_endSegment ht hs hs' hv
  · exact ⟨v₀,hv₀,by rw [he]⟩
  · refine ⟨v₀,hv₀,?_⟩
    rw [he,Coverage.instants_insert (ha.separated hv₀)]
    exact Finset.subset_union_left

theorem Ranges.endSegment (ht : t.Rooted) (ha : t.Ranges) (hs : t.get? i = some s)
    (hn : s.isFinished = false) (hs' : (s.stopAt now).Alike s') : (t.endSegment i s').Ranges := by
  have hl : t.Later (t.endSegment i s') := later_endSegment ht hs hn hs'
  have hfin := Segment.isFinished_of_stopAt hs'
  obtain ⟨r,hu,hcounts⟩ := get?_endSegment_self ht hs hs'.parent
  have hrec := ha.rangeRecorded_eq_false hs hn
  rw [show s'.rangeRecorded = false from hs'.rangeRecorded.trans hrec] at hcounts
  have hself : s'.parent ≠ some i := fun h => absurd (ht.parent_lt hs (hs'.parent ▸ h)) (lt_irrefl _)
  constructor
  case separated =>
    intro j v hv
    obtain ⟨v₀,hv₀,he | ⟨-,-,he⟩⟩ := childrenRanges_endSegment ht hs hs' hv
    · exact he ▸ ha.separated hv₀
    · exact he ▸ (ha.separated hv₀).insert _
  case recorded =>
    intro j v hv hr
    by_cases hj : j = i
    · subst hj
      cases get?_inj hu hv
      exact hfin
    · obtain ⟨v₀,hv₀,htimes,hrec⟩ := exists_times_of_endSegment ht hs hs'.parent hv hj
      rw [Segment.isFinished_of_times htimes]
      exact ha.recorded hv₀ (hrec ▸ hr)
  case covers =>
    intro c p sc v hc hp hv hr
    obtain ⟨v₀,hv₀,hsub⟩ := ha.subset_endSegment ht hs hs' hv
    by_cases hci : c = i
    · subst hci
      cases get?_inj hu hc
      have hcount : v₀.countsRange s'.timeRange = true := by
        rw [← hr,hcounts hp hv₀,Bool.false_or]
      have hpc : p ≠ c := fun h => hself (h ▸ hp)
      obtain ⟨v₁,hv₁,⟨-,rfl⟩ | ⟨hne,-⟩⟩ := exists_of_endSegment ht hs hs'.parent hv hpc
      · cases get?_inj hv₀ hv₁
        rw [Segment.childComplete_eq,hcount]
        simp only [if_true]
        rw [Coverage.instants_insert (ha.separated hv₀)]
        exact Finset.subset_union_right
      · exact absurd hp hne
    · obtain ⟨c₀,hc₀,htimes,hrec₀⟩ := exists_times_of_endSegment ht hs hs'.parent hc hci
      rw [Segment.timeRange_of_times htimes]
      exact (ha.covers hc₀ (Segment.parent_of_times htimes ▸ hp) hv₀ (hrec₀ ▸ hr)).trans hsub
  case traced =>
    intro p v x hv hx
    obtain ⟨v₀,hv₀,he | ⟨hp,hc,he⟩⟩ := childrenRanges_endSegment ht hs hs' hv
    · exact (ha.traced hv₀ (he ▸ hx)).later hl
    · rw [he,Coverage.instants_insert (ha.separated hv₀)] at hx
      rcases Finset.mem_union.mp hx with hx | hx
      · exact (ha.traced hv₀ hx).later hl
      · exact ⟨i,_,i,_,hu,hp,by simp [hcounts hp hv₀,hc],hu,hfin,Or.inl rfl,hx⟩

section Absorb

variable {d c a : ℕ} {sd sc sa : Segment}

theorem instants_absorb (hsep : sa.childrenRanges.Separated) (r : TimeRange) (child : Segment) :
    (sa.absorb r child).childrenRanges.Separated ∧ (sa.absorb r child).childrenRanges.instants =
      if child.rangeRecorded then sa.childrenRanges.instants ∪ r.instants
      else sa.childrenRanges.instants ∪ r.instants ∪ child.timeRange.instants := by
  rw [Segment.absorb_eq]
  simp only
  split
  · exact ⟨hsep.insert r,Coverage.instants_insert hsep r⟩
  · exact ⟨(hsep.insert r).insert _,
      by rw [Coverage.instants_insert (hsep.insert r),Coverage.instants_insert hsep]⟩

theorem keeps_absorb (r : TimeRange) (v child : Segment) : (v.absorb r child).times = v.times ∧
    (v.absorb r child).rangeRecorded = v.rangeRecorded := by
  rw [Segment.absorb_eq]
  exact ⟨rfl,rfl⟩

theorem Sums.absorb (ht : t.Rooted) (hsums : t.Sums) (hc : t.get? c = some sc)
    (hcf : sc.isFinished = true) (ha : t.get? a = some sa) (hp : sc.parent = some a) (r : TimeRange) :
    (t.recordDescendant r c a).Sums := by
  have hne : a ≠ c := (ht.parent_lt hc hp).ne
  have hu : (t.recordDescendant r c a).get? c = some sc.markRangeRecorded :=
    (get?_recordDescendant hc ha hne r c).trans (if_pos rfl)
  have hweigh : ∀ {w : Segment → ℕ},
      (∀ {v v' : Segment}, v'.times = v.times → v'.rangeRecorded = v.rangeRecorded → w v' = w v) →
      weigh w (t.recordDescendant r c a)+w sc = weigh w t+w sc.markRangeRecorded := by
    intro w hw
    refine weigh_update (size_recordDescendant t r c a) hc hu fun j hj => ?_
    rw [get?_recordDescendant hc ha hne,if_neg hj]
    split
    · rename_i hja
      rw [hja,ha,Option.map_some,Option.map_some,hw (keeps_absorb r sa sc).1 (keeps_absorb r sa sc).2]
    · rfl
  have hrunning : ∀ p, weigh (running p) (t.recordDescendant r c a) = weigh (running p) t := by
    intro p
    have h := hweigh (w := running p) fun h _ => running_of_times h
    rwa [running_eq_zero hcf,running_eq_zero (s := sc.markRangeRecorded) hcf] at h
  have hscalar : ∀ p, weigh (scalar p) (t.recordDescendant r c a)+scalar p sc = weigh (scalar p) t := by
    intro p
    have h := hweigh (w := scalar p) fun h h' => scalar_of_times h h'
    rwa [show scalar p sc.markRangeRecorded = 0 by simp [scalar,Segment.markRangeRecorded],
      Nat.add_zero] at h
  constructor
  case active =>
    intro j u hu
    rw [hrunning]
    obtain ⟨v,hv,⟨-,rfl⟩ | ⟨-,-,rfl⟩ | ⟨-,-,rfl⟩⟩ := exists_of_recordDescendant hc ha hne r hu
    · exact hsums.active (s := v) hv
    · rw [Segment.absorb_eq,← hsums.active hv]
    · exact hsums.active hv
  case counted =>
    intro j u hu
    have hsum := hscalar j
    obtain ⟨v,hv,⟨rfl,rfl⟩ | ⟨rfl,-,rfl⟩ | ⟨hja,-,rfl⟩⟩ := exists_of_recordDescendant hc ha hne r hu
    · rw [scalar_of_parent_ne (by simpa [hp] using hne),Nat.add_zero] at hsum
      rw [hsum,← hsums.counted hv]
      rfl
    · rw [Segment.absorb_eq,hsums.counted hv]
      cases hr : sc.rangeRecorded with
      | true => simpa [scalar,hr] using hsum.symm
      | false =>
        have hdur : scalar j sc = sc.duration := if_pos ⟨hp,hcf,hr⟩
        rw [hdur] at hsum
        simp only [Bool.false_eq_true,if_false]
        exact (Nat.eq_sub_of_add_eq hsum).symm
    · rw [scalar_of_parent_ne (by simpa [hp] using Ne.symm hja),Nat.add_zero] at hsum
      rw [hsum,hsums.counted hv]

theorem Ranges.subset_recordDescendant (ht : t.Rooted) (hranges : t.Ranges) (hc : t.get? c = some sc)
    (ha : t.get? a = some sa) (hp : sc.parent = some a) (r : TimeRange) {j : ℕ} {v : Segment}
    (hv : (t.recordDescendant r c a).get? j = some v) :
    ∃ v₀, t.get? j = some v₀ ∧ v₀.childrenRanges.instants ⊆ v.childrenRanges.instants := by
  obtain ⟨v₀,hv₀,⟨-,rfl⟩ | ⟨-,-,rfl⟩ | ⟨-,-,rfl⟩⟩ :=
    exists_of_recordDescendant hc ha (ht.parent_lt hc hp).ne r hv
  · exact ⟨v₀,hv₀,subset_rfl⟩
  · refine ⟨v₀,hv₀,?_⟩
    rw [(instants_absorb (hranges.separated hv₀) _ _).2]
    split
    · exact Finset.subset_union_left
    · exact Finset.subset_union_left.trans Finset.subset_union_left
  · exact ⟨_,hv₀,subset_rfl⟩

theorem Ranges.absorb (ht : t.Rooted) (hranges : t.Ranges) (hd : t.get? d = some sd)
    (hdf : sd.isFinished = true) (hc : t.get? c = some sc) (hcf : sc.isFinished = true)
    (ha : t.get? a = some sa) (hp : sc.parent = some a) (hcd : c ∈ t.ancestors d) :
    (t.recordDescendant sd.timeRange c a).Ranges := by
  have hne : a ≠ c := (ht.parent_lt hc hp).ne
  have hquiet : Quiet t (t.recordDescendant sd.timeRange c a) := .absorb hd hdf hc hcf ha hp hcd
  have hl : t.Later (t.recordDescendant sd.timeRange c a) := hquiet.later ht
  have hu : (t.recordDescendant sd.timeRange c a).get? c = some sc.markRangeRecorded :=
    (get?_recordDescendant hc ha hne _ c).trans (if_pos rfl)
  have hback := fun {j u} (hu : (t.recordDescendant sd.timeRange c a).get? j = some u) =>
    exists_of_recordDescendant hc ha hne _ hu
  constructor
  case separated =>
    intro j v hv
    obtain ⟨v₀,hv₀,⟨-,rfl⟩ | ⟨-,-,rfl⟩ | ⟨-,-,rfl⟩⟩ := hback hv
    · exact hranges.separated (s := v₀) hv₀
    · exact (instants_absorb (hranges.separated hv₀) _ _).1
    · exact hranges.separated hv₀
  case recorded =>
    intro j v hv hr
    obtain ⟨v₀,hv₀,⟨rfl,rfl⟩ | ⟨-,-,rfl⟩ | ⟨-,-,rfl⟩⟩ := hback hv
    · cases get?_inj hc hv₀
      exact hcf
    · exact (Segment.kept_absorb _ v₀ sc).later.isFinished
        (hranges.recorded hv₀ ((keeps_absorb _ v₀ sc).2 ▸ hr))
    · exact hranges.recorded hv₀ hr
  case covers =>
    intro j p v w hv hvp hw hr
    by_cases hj : j = c ∧ sc.rangeRecorded = false
    · obtain ⟨rfl,hrec⟩ := hj
      cases get?_inj hu hv
      obtain rfl : a = p := Option.some.inj (hp.symm.trans hvp)
      have hwa := (get?_recordDescendant hc ha hne sd.timeRange a).trans
        ((if_neg hne).trans (if_pos rfl))
      cases get?_inj hwa hw
      rw [(instants_absorb (hranges.separated ha) _ _).2,hrec]
      exact Finset.subset_union_right
    · obtain ⟨w₀,hw₀,hsub⟩ := hranges.subset_recordDescendant ht hc ha hp _ hw
      obtain ⟨v₀,hv₀,htimes,hrec⟩ : ∃ v₀, t.get? j = some v₀ ∧ v.times = v₀.times ∧
          v₀.rangeRecorded = true := by
        obtain ⟨v₀,hv₀,⟨rfl,rfl⟩ | ⟨-,-,rfl⟩ | ⟨-,-,rfl⟩⟩ := hback hv
        · cases get?_inj hc hv₀
          exact ⟨sc,hc,rfl,by simpa using hj⟩
        · exact ⟨v₀,hv₀,(keeps_absorb _ v₀ sc).1,(keeps_absorb _ v₀ sc).2 ▸ hr⟩
        · exact ⟨_,hv₀,rfl,hr⟩
      rw [Segment.timeRange_of_times htimes]
      exact (hranges.covers hv₀ (Segment.parent_of_times htimes ▸ hvp) hw₀ hrec).trans hsub
  case traced =>
    intro j v x hv hx
    obtain ⟨v₀,hv₀,⟨-,rfl⟩ | ⟨rfl,-,rfl⟩ | ⟨-,-,rfl⟩⟩ := hback hv
    · exact (hranges.traced (s := v₀) hv₀ hx).later hl
    · obtain ⟨sd',hd',hld⟩ := hl hd
      have hrange := Segment.timeRange_of_times (hld.times_eq hdf)
      have hway : c ∈ (t.recordDescendant sd.timeRange c j).ancestors d :=
        (hquiet.sameTimes ht).ancestors d ▸ hcd
      have hlate : x ∈ sd.timeRange.instants → (t.recordDescendant sd.timeRange c j).Traced j x :=
        fun hx => ⟨c,_,d,sd',hu,hp,rfl,hd',hld.isFinished hdf,Or.inr hway,hrange ▸ hx⟩
      rw [(instants_absorb (hranges.separated hv₀) _ _).2] at hx
      split at hx
      · rcases Finset.mem_union.mp hx with hx | hx
        · exact (hranges.traced hv₀ hx).later hl
        · exact hlate hx
      · rcases Finset.mem_union.mp hx with hx | hx
        · rcases Finset.mem_union.mp hx with hx | hx
          · exact (hranges.traced hv₀ hx).later hl
          · exact hlate hx
        · exact ⟨c,_,c,_,hu,hp,rfl,hu,hcf,Or.inl rfl,hx⟩
    · exact (hranges.traced hv₀ hx).later hl

end Absorb

/-- The accounts of all segments agree with the tree. -/
structure Accounts (t : SegmentTree) : Prop where
  sums : t.Sums
  ranges : t.Ranges

theorem Accounts.congr (ha : t.Accounts) (hl : t.Later t') (hsize : t'.size = t.size)
    (h : ∀ {j s'}, t'.get? j = some s' → ∃ s, t.get? j = some s ∧ SameAccounts s s') : t'.Accounts :=
  ⟨ha.sums.congr hsize h,ha.ranges.congr hl h⟩

theorem Accounts.quiet (ht : t.Rooted) (ha : t.Accounts) (h : Quiet t t') : t'.Accounts := by
  have hl : t.Later t' := h.later ht
  have hsize := h.size
  cases h with
  | relabel hs _ =>
    exact ha.congr hl hsize fun {j s'} hs' => ⟨s',by simpa [get?,hs] using hs',SameAccounts.refl s'⟩
  | @retouch k f hf =>
    refine ha.congr hl hsize fun {j s'} hs' => ?_
    obtain ⟨v,hv,⟨rfl,rfl⟩ | ⟨-,rfl⟩⟩ := exists_of_modify hs'
    · exact ⟨v,hv,SameAccounts.of_alike (hf v hv)⟩
    · exact ⟨s',hv,SameAccounts.refl s'⟩
  | absorb hd hdf hc hcf hsa hp hcd =>
    exact ⟨ha.sums.absorb ht hc hcf hsa hp _,ha.ranges.absorb ht hd hdf hc hcf hsa hp hcd⟩

theorem Accounts.change (ht : t.Rooted) (ha : t.Accounts) (h : Change now orderly t t') :
    t'.Accounts := by
  have hl : t.Later t' := h.later ht
  cases h with
  | quiet h => exact ha.quiet ht h
  | start b hq hs _ => exact ⟨ha.sums.start ht b hq hs,ha.ranges.start ht b hq hs⟩
  | stop hs hn hs' _ =>
    exact ⟨ha.sums.endSegment ht hs hn (ha.ranges.rangeRecorded_eq_false hs hn) hs',
      ha.ranges.endSegment ht hs hn hs'⟩
  | @finalize k sk hk _ hn =>
    refine ha.congr hl (get?_finalize hk hn).1 fun {j u} hu => ?_
    obtain ⟨v,hv,⟨-,rfl,hu'⟩ | ⟨-,rfl⟩⟩ := exists_of_finalize hk hn hu
    · exact ⟨v,hv,hu'.times_eq,hu'.childrenTime,hu'.childrenRanges,hu'.activeChildren,hu'.rangeRecorded⟩
    · exact ⟨u,hv,SameAccounts.refl u⟩

theorem Changes.accounts (ht : t.Rooted) (ha : t.Accounts) (h : Changes now orderly t t') :
    t'.Accounts := by
  induction h with
  | refl => exact ha
  | tail hc h ih => exact ih.change (Changes.rooted ht hc) h

end TraceEngine.SegmentTree
