import Mathlib.Combinatorics.Enumerative.DoubleCounting
import Mathlib.Data.Finset.Max
import TraceEngine.Proofs.Segment.Results

/-! Why no time is lost in the total. What the result of a segment leaves out is charged to its
children: the durations of some, and an instant in which something ran below another. So for each
instant there is one more segment that is charged to no other than there are segments that leave the
instant out. -/
namespace TraceEngine.SegmentTree

variable {t t' : SegmentTree} {before now : Time} {orderly : Prop} {i p x : ℕ} {q s s' : Segment}
  {K V : Finset ℕ}

/-- The result of a segment leaves out the durations of the children in `K` and the instants of `V`. -/
structure Settled (t : SegmentTree) (p : ℕ) (s : Segment) (K V : Finset ℕ) : Prop where
  duration_le : s.duration ≤ s.exclusive+∑ c ∈ K, (t.instants c).card+(s.timeRange.instants ∩ V).card
  charged : ∀ c ∈ K, ∃ sc, t.get? c = some sc ∧ sc.parent = some p ∧ sc.isFinished = true ∧
    sc.timeRange.instants ⊆ s.timeRange.instants
  covered : ∀ x ∈ V, ∃ c sc d sd, c ∉ K ∧ t.get? c = some sc ∧ sc.parent = some p ∧ t.get? d = some sd ∧
    sd.isFinished = true ∧ (c = d ∨ c ∈ t.ancestors d) ∧ x ∈ sd.timeRange.instants

theorem Settled.later (hl : t.Later t') (hs : s.Later s') (hf : s.isFinished = true)
    (hz : s.finalized = true) (h : t.Settled p s K V) : t'.Settled p s' K V := by
  have hrange := Segment.timeRange_of_times (hs.times_eq hf)
  constructor
  case duration_le =>
    have hcards : ∑ c ∈ K, (t'.instants c).card = ∑ c ∈ K, (t.instants c).card := by
      refine Finset.sum_congr rfl fun c hc => ?_
      obtain ⟨sc,hsc,-,hcf,-⟩ := h.charged c hc
      obtain ⟨sc',hsc',hlc⟩ := hl hsc
      rw [instants_of_get? hsc,instants_of_get? hsc',Segment.timeRange_of_times (hlc.times_eq hcf)]
    have hle := h.duration_le
    rw [Segment.duration] at hle ⊢
    rwa [hcards,hrange,(hs.finalized hz).2]
  case charged =>
    intro c hc
    obtain ⟨sc,hsc,hp,hcf,hsub⟩ := h.charged c hc
    obtain ⟨sc',hsc',hlc⟩ := hl hsc
    refine ⟨sc',hsc',hlc.parent.trans hp,hlc.isFinished hcf,?_⟩
    rwa [hrange,Segment.timeRange_of_times (hlc.times_eq hcf)]
  case covered =>
    intro x hx
    obtain ⟨c,sc,d,sd,hcK,hc,hp,hd,hdf,hcd,hx⟩ := h.covered x hx
    obtain ⟨sc',hc',hlc⟩ := hl hc
    obtain ⟨sd',hd',hld⟩ := hl hd
    refine ⟨c,sc',d,sd',hcK,hc',hlc.parent.trans hp,hd',hld.isFinished hdf,?_,?_⟩
    · rwa [hl.ancestors (lt_size_of_get? hd)]
    · rwa [Segment.timeRange_of_times (hld.times_eq hdf)]

theorem Sound.settled (h : t.Sound now) (hs : t.get? p = some s) (hf : s.isFinished = true) :
    t.Settled p s.recordExclusive (t.counted p) s.childrenRanges.instants := by
  constructor
  case duration_le =>
    have hsub : ∀ a b c : ℕ, a ≤ a-b-c+b+c := by omega
    have hle := hsub s.duration (∑ c ∈ t.counted p, (t.instants c).card)
      (s.childrenRanges.instants ∩ s.timeRange.instants).card
    rwa [← h.accounts.exclusiveTime_eq hs,Finset.inter_comm s.childrenRanges.instants] at hle
  case charged =>
    intro c hc
    obtain ⟨sc,hsc,hp,hcf,hr⟩ := mem_counted.mp hc
    refine ⟨sc,hsc,hp,hcf,fun x hx => ?_⟩
    obtain ⟨e,he⟩ := Segment.exists_stop hcf
    obtain ⟨e',he'⟩ := Segment.exists_stop hf
    have h1 := h.timely.nested hsc hp hs
    have h2 := h.timely.within hsc hp hs he hr he'
    have hx' := TimeRange.mem_instants.mp hx
    simp only [Segment.timeRange,he,Option.getD_some] at hx'
    refine TimeRange.mem_instants.mpr ⟨h1.trans hx'.1,?_⟩
    simpa only [Segment.timeRange,Segment.recordExclusive,he',Option.getD_some] using hx'.2.trans_le h2
  case covered =>
    intro x hx
    obtain ⟨c,sc,d,sd,hc,hp,hr,hd,hdf,hcd,hx⟩ := h.accounts.ranges.traced hs hx
    refine ⟨c,sc,d,sd,fun hmem => ?_,hc,hp,hd,hdf,hcd,hx⟩
    obtain ⟨sc',hc',-,-,hr'⟩ := mem_counted.mp hmem
    cases get?_inj hc hc'
    simp [hr] at hr'

def AllSettled (t : SegmentTree) : Prop :=
  ∀ {p s}, t.get? p = some s → s.finalized = true → ∃ K V, t.Settled p s K V

theorem AllSettled.change (ht : t.Sound before) (h : t.AllSettled) (hc : Change now orderly t t') :
    t'.AllSettled := by
  intro p s' hs' hz'
  have hl : t.Later t' := hc.later ht.rooted
  obtain ⟨s,hs,hls,hz | ⟨hz,hf,halike⟩⟩ := hc.finalized ht.rooted hs' hz'
  · obtain ⟨K,V,hKV⟩ := h hs hz
    exact ⟨K,V,hKV.later hl hls (ht.results.ended hs hz) hz⟩
  · exact ⟨_,_,(ht.settled hs hf).later hl halike.later hf rfl⟩

theorem AllSettled.changes (ht : t.Sound before) (hle : before ≤ now) (h : t.AllSettled)
    (hc : Changes now orderly t t') : t'.AllSettled := by
  induction hc with
  | refl => exact h
  | tail hc' hc ih => exact AllSettled.change (ht.changes hle hc') ih hc

theorem ancestors_linear (ht : t.Rooted) {a c e : ℕ} (ha : a ∈ t.ancestors e) (hc : c ∈ t.ancestors e) :
    a = c ∨ c ∈ t.ancestors a ∨ a ∈ t.ancestors c := by
  induction e using Nat.strong_induction_on with
  | _ e ih =>
    obtain ⟨s,p,hs,hp,ha'⟩ := exists_parent_of_mem_ancestors ha
    obtain ⟨s₂,p₂,hs₂,hp₂,hc'⟩ := exists_parent_of_mem_ancestors hc
    cases get?_inj hs hs₂
    cases Option.some.inj (hp.symm.trans hp₂)
    rcases ha' with rfl | ha'
    · rcases hc' with rfl | hc'
      · exact Or.inl rfl
      · exact Or.inr (Or.inl hc')
    · rcases hc' with rfl | hc'
      · exact Or.inr (Or.inr ha')
      · exact ih p (ht.parent_lt hs hp) ha' hc'

/-- The nearest segment above that ran in an instant, too. -/
def host (t : SegmentTree) (x c : ℕ) : WithBot ℕ :=
  ((t.ancestors c).toFinset.filter fun a => x ∈ t.instants a).max

theorem host_eq_bot {c : ℕ} (h : ∀ a ∈ t.ancestors c, x ∉ t.instants a) : t.host x c = ⊥ := by
  rw [host,Finset.max_eq_bot,Finset.filter_eq_empty_iff]
  exact fun a ha => h a (List.mem_toFinset.mp ha)

theorem host_eq {c : ℕ} (hp : p ∈ t.ancestors c) (hx : x ∈ t.instants p)
    (h : ∀ a ∈ t.ancestors c, x ∈ t.instants a → a ≤ p) : t.host x c = p := by
  refine le_antisymm (Finset.max_le fun a ha => ?_) (Finset.le_max ?_)
  · obtain ⟨ha,hxa⟩ := Finset.mem_filter.mp ha
    exact WithBot.coe_le_coe.mpr (h a (List.mem_toFinset.mp ha) hxa)
  · exact Finset.mem_filter.mpr ⟨List.mem_toFinset.mpr hp,hx⟩

section Charges

variable {charges gaps : ℕ → Finset ℕ}
  (hsettled : ∀ {p s}, t.get? p = some s → t.Settled p s (charges p) (gaps p))

/-- The segments that are charged to no parent. -/
def uncharged (t : SegmentTree) (charges : ℕ → Finset ℕ) : Finset ℕ :=
  (Finset.range t.size) \ (Finset.range t.size).biUnion charges

include hsettled

theorem mem_uncharged {c : ℕ} {sc : Segment} (hc : t.get? c = some sc)
    (h : ∀ p, sc.parent = some p → c ∉ charges p) : c ∈ t.uncharged charges := by
  refine Finset.mem_sdiff.mpr ⟨Finset.mem_range.mpr (lt_size_of_get? hc),fun hmem => ?_⟩
  obtain ⟨p,hp,hcp⟩ := Finset.mem_biUnion.mp hmem
  obtain ⟨s,hs⟩ := exists_get? (Finset.mem_range.mp hp)
  obtain ⟨sc',hc',hpar,-⟩ := (hsettled hs).charged c hcp
  cases get?_inj hc hc'
  exact h p hpar hcp

theorem instants_subset_of_charged {c : ℕ} (hp : p < t.size) (hc : c ∈ charges p) :
    t.instants c ⊆ t.instants p := by
  obtain ⟨s,hs⟩ := exists_get? hp
  obtain ⟨sc,hsc,-,-,hsub⟩ := (hsettled hs).charged c hc
  rwa [instants_of_get? hsc,instants_of_get? hs]

/-- The topmost segment that ran in an instant is charged to none. -/
theorem exists_host_eq_bot (ht : t.Rooted) (hx : ∃ i, x ∈ t.instants i) :
    ∃ c ∈ t.uncharged charges, x ∈ t.instants c ∧ t.host x c = ⊥ := by
  let c := Nat.find hx
  have hc : x ∈ t.instants c := Nat.find_spec hx
  have hmin : ∀ j < c, x ∉ t.instants j := fun j hj => Nat.find_min hx hj
  obtain ⟨sc,hsc,-⟩ := exists_of_mem_instants hc
  refine ⟨c,mem_uncharged hsettled hsc fun p hp hcp => ?_,hc,?_⟩
  · have hlt := ht.parent_lt hsc hp
    exact hmin p hlt (instants_subset_of_charged hsettled (hlt.trans (lt_size_of_get? hsc)) hcp hc)
  · exact host_eq_bot fun a ha => hmin a (lt_of_mem_ancestors ha)

/-- Where a segment leaves an instant out, some segment below it that ran in the instant is charged
to none. -/
theorem exists_host_eq (ht : t.Rooted) (hs : t.get? p = some s) (hx : x ∈ t.instants p)
    (hgap : x ∈ gaps p) :
    ∃ c ∈ t.uncharged charges, x ∈ t.instants c ∧ t.host x c = p := by
  obtain ⟨c,sc,d,sd,hcharge,hc,hp,hd,-,hcd,hxd⟩ := (hsettled hs).covered x hgap
  have hbelow : ∃ e, x ∈ t.instants e ∧ (c = e ∨ c ∈ t.ancestors e) :=
    ⟨d,by rwa [instants_of_get? hd],hcd⟩
  let e := Nat.find hbelow
  obtain ⟨hxe,hce⟩ : x ∈ t.instants e ∧ (c = e ∨ c ∈ t.ancestors e) := Nat.find_spec hbelow
  have hmin : ∀ j < e, x ∈ t.instants j → ¬ (c = j ∨ c ∈ t.ancestors j) := fun j hj hxj h =>
    Nat.find_min hbelow hj ⟨hxj,h⟩
  have hpc : p ∈ t.ancestors c := by
    rw [ht.ancestors_eq hc hp]
    exact List.mem_cons_self
  have hpe : p ∈ t.ancestors e := by
    rcases hce with he | he
    · exact he ▸ hpc
    · exact ancestors_trans hpc he
  obtain ⟨se,hse,-⟩ := exists_of_mem_instants hxe
  refine ⟨e,mem_uncharged hsettled hse fun r hr her => ?_,hxe,host_eq hpe hx fun a ha hxa => ?_⟩
  · have hlt := ht.parent_lt hse hr
    have hxr := instants_subset_of_charged hsettled (hlt.trans (lt_size_of_get? hse)) her hxe
    rcases hce with he | he
    · rw [← he] at hse her
      cases get?_inj hc hse
      cases Option.some.inj (hp.symm.trans hr)
      exact hcharge her
    · rw [ht.ancestors_eq hse hr] at he
      exact hmin r hlt hxr (List.mem_cons.mp he)
  · have hae := lt_of_mem_ancestors ha
    have hac : a ∈ t.ancestors c := by
      rcases hce with he | he
      · exact he ▸ ha
      · rcases ancestors_linear ht ha he with h | h | h
        · exact absurd (Or.inl h.symm) (hmin a hae hxa)
        · exact absurd (Or.inr h) (hmin a hae hxa)
        · exact h
    rw [ht.ancestors_eq hc hp] at hac
    rcases List.mem_cons.mp hac with h | h
    · exact h.le
    · exact (lt_of_mem_ancestors h).le

/-- In each instant one more segment runs that is charged to none than there are segments that leave
it out. -/
theorem card_gaps_lt (ht : t.Rooted) (hx : ∃ i, x ∈ t.instants i) :
    ((Finset.range t.size).filter fun p => x ∈ t.instants p ∩ gaps p).card <
      ((t.uncharged charges).filter fun c => x ∈ t.instants c).card := by
  have hsub : insert ⊥ (((Finset.range t.size).filter fun p => x ∈ t.instants p ∩ gaps p).image
      (WithBot.some : ℕ → WithBot ℕ)) ⊆
        ((t.uncharged charges).filter fun c => x ∈ t.instants c).image (t.host x) := by
    intro v hv
    rcases Finset.mem_insert.mp hv with rfl | hv
    · obtain ⟨c,hc,hxc,hhost⟩ := exists_host_eq_bot hsettled ht hx
      exact Finset.mem_image.mpr ⟨c,Finset.mem_filter.mpr ⟨hc,hxc⟩,hhost⟩
    · obtain ⟨p,hp,rfl⟩ := Finset.mem_image.mp hv
      obtain ⟨hp,hxp⟩ := Finset.mem_filter.mp hp
      obtain ⟨hx,hgap⟩ := Finset.mem_inter.mp hxp
      obtain ⟨s,hs⟩ := exists_get? (Finset.mem_range.mp hp)
      obtain ⟨c,hc,hxc,hhost⟩ := exists_host_eq hsettled ht hs hx hgap
      exact Finset.mem_image.mpr ⟨c,Finset.mem_filter.mpr ⟨hc,hxc⟩,hhost⟩
  have hcard := (Finset.card_le_card hsub).trans Finset.card_image_le
  rwa [Finset.card_insert_of_notMem (by simp),
    Finset.card_image_of_injective _ WithBot.coe_injective] at hcard

theorem sum_uncharged_le :
    ∑ c ∈ t.uncharged charges, (t.instants c).card ≤
      weigh (·.exclusive) t+∑ p ∈ Finset.range t.size, (t.instants p ∩ gaps p).card := by
  have hsub : (Finset.range t.size).biUnion charges ⊆ Finset.range t.size := by
    intro c hc
    obtain ⟨p,hp,hcp⟩ := Finset.mem_biUnion.mp hc
    obtain ⟨s,hs⟩ := exists_get? (Finset.mem_range.mp hp)
    obtain ⟨sc,hsc,-⟩ := (hsettled hs).charged c hcp
    exact Finset.mem_range.mpr (lt_size_of_get? hsc)
  have hdisjoint : Set.PairwiseDisjoint (↑(Finset.range t.size)) charges := by
    intro p hp r hr hne
    refine Finset.disjoint_left.mpr fun c hcp hcr => hne ?_
    obtain ⟨s,hs⟩ := exists_get? (Finset.mem_range.mp hp)
    obtain ⟨u,hu⟩ := exists_get? (Finset.mem_range.mp hr)
    obtain ⟨sc,hsc,hparent,-⟩ := (hsettled hs).charged c hcp
    obtain ⟨sc',hsc',hparent',-⟩ := (hsettled hu).charged c hcr
    cases get?_inj hsc hsc'
    exact Option.some.inj (hparent.symm.trans hparent')
  have hsplit := Finset.sum_sdiff (f := fun c => (t.instants c).card) hsub
  have hcharges := Finset.sum_biUnion (f := fun c => (t.instants c).card) hdisjoint
  have hle : ∑ p ∈ Finset.range t.size, (t.instants p).card ≤ ∑ p ∈ Finset.range t.size,
      (((t.get? p).map (·.exclusive)).getD 0+
        ∑ c ∈ charges p, (t.instants c).card+(t.instants p ∩ gaps p).card) := by
    refine Finset.sum_le_sum fun p hp => ?_
    obtain ⟨s,hs⟩ := exists_get? (Finset.mem_range.mp hp)
    have h := (hsettled hs).duration_le
    rw [Segment.duration_eq_card] at h
    rwa [instants_of_get? hs,hs]
  rw [Finset.sum_add_distrib,Finset.sum_add_distrib,← weigh_eq_sum] at hle
  simp only [uncharged]
  omega

end Charges

theorem sum_card_filter_mem {J B : Finset ℕ} {A : ℕ → Finset ℕ} (h : ∀ j ∈ J, A j ⊆ B) :
    ∑ x ∈ B, (J.filter fun j => x ∈ A j).card = ∑ j ∈ J, (A j).card := by
  have hcount := Finset.sum_card_bipartiteAbove_eq_sum_card_bipartiteBelow (s := B) (t := J)
    fun x j => x ∈ A j
  rw [show ∑ x ∈ B, (J.filter fun j => x ∈ A j).card = _ from hcount]
  refine Finset.sum_congr rfl fun j hj => congrArg Finset.card ?_
  rw [Finset.bipartiteBelow,Finset.filter_mem_eq_inter,Finset.inter_eq_right.mpr (h j hj)]

/-- If every segment has a result, then the results add up to no less than the time in which some
segment ran. -/
theorem AllSettled.card_busy_le (ht : t.Rooted) (h : t.AllSettled)
    (hall : ∀ {i s}, t.get? i = some s → s.finalized = true) :
    (Segment.busy t.segments.toList).card ≤ weigh (·.exclusive) t := by
  have hexists : ∀ p, ∃ K V, ∀ s, t.get? p = some s → t.Settled p s K V := by
    intro p
    cases hs : t.get? p with
    | none => exact ⟨∅,∅,by simp⟩
    | some s =>
      obtain ⟨K,V,hKV⟩ := h hs (hall hs)
      exact ⟨K,V,fun s' hs' => Option.some.inj hs' ▸ hKV⟩
  choose charges gaps hsettled using hexists
  have hsettled : ∀ {p s}, t.get? p = some s → t.Settled p s (charges p) (gaps p) := hsettled _ _
  have hbusy : ∀ i, t.instants i ⊆ Segment.busy t.segments.toList := by
    intro i x hx
    obtain ⟨s,hs,hx⟩ := exists_of_mem_instants hx
    exact Segment.mem_busy.mpr ⟨s,mem_segments.mpr ⟨i,hs⟩,hx⟩
  have hcount : ∑ x ∈ Segment.busy t.segments.toList,
      (((Finset.range t.size).filter fun p => x ∈ t.instants p ∩ gaps p).card+1) ≤
        ∑ x ∈ Segment.busy t.segments.toList,
          ((t.uncharged charges).filter fun c => x ∈ t.instants c).card := by
    refine Finset.sum_le_sum fun x hx => card_gaps_lt hsettled ht ?_
    obtain ⟨s,hs,hx⟩ := Segment.mem_busy.mp hx
    obtain ⟨i,hi⟩ := mem_segments.mp hs
    exact ⟨i,instants_of_get? hi ▸ hx⟩
  rw [Finset.sum_add_distrib,sum_card_filter_mem fun p _ => Finset.inter_subset_left.trans (hbusy p),
    sum_card_filter_mem fun c _ => hbusy c,Finset.sum_const,smul_eq_mul,mul_one] at hcount
  have hsum := sum_uncharged_le hsettled
  omega

end TraceEngine.SegmentTree
