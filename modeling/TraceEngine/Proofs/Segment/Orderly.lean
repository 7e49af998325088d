import TraceEngine.Proofs.Segment.Nested

/-! Orderly trees, in which no segment ends before its children. There a result leaves out just the
time in which the children ran, as no child that is counted by its duration shares time with another
child. -/
namespace TraceEngine.SegmentTree

variable {t t' : SegmentTree} {before now : Time} {i p x : ℕ} {q s s' : Segment}

/-- Below a segment that has ended all segments have ended, none later. -/
def Orderly (t : SegmentTree) : Prop :=
  ∀ c p sc sp e, t.get? c = some sc → sc.parent = some p → t.get? p = some sp → sp.stop = some e →
    ∃ x, sc.stop = some x ∧ x ≤ e

theorem Orderly.congr (h : t.Orderly) (htimes : SameTimes t t') : t'.Orderly := by
  intro c p sc sp e hc hp hsp he
  obtain ⟨vc,hvc,htc⟩ := htimes.symm.get? hc
  obtain ⟨vp,hvp,htp⟩ := htimes.symm.get? hsp
  obtain ⟨h1,-,h3⟩ := Segment.times_eq.mp htc
  rw [← h3]
  exact h c p vc vp e hvc (h1.trans hp) hvp ((Segment.stop_of_times htp).trans he)

theorem Orderly.start (ht : t.Rooted) (h : t.Orderly) (b : Bool) (hq : t.get? p = some q)
    (hn : q.isFinished = false)
    (hs : ({ guid := s.guid, name := s.name, start := now } : Segment).Alike s) :
    (t.start s p b).Orderly := by
  have hp := lt_size_of_get? hq
  have ht' := ht.start b hq hs
  intro c a sc sa e hc hca ha he
  have hac := ht'.parent_lt hc hca
  have hsize := lt_size_of_get? hc
  rw [size_start] at hsize
  obtain ⟨va,hva,hta,-⟩ := exists_times_of_start hp ha (by omega)
  have he' := Segment.stop_of_times hta ▸ he
  by_cases hcn : c = t.size
  · subst hcn
    cases get?_inj (get?_start_size hp s b) hc
    cases Option.some.inj hca
    cases get?_inj hq hva
    simp [Segment.isFinished_of_stop he'] at hn
  · obtain ⟨vc,hvc,htc,-⟩ := exists_times_of_start hp hc hcn
    rw [Segment.stop_of_times htc]
    exact h c a vc va e hvc (Segment.parent_of_times htc ▸ hca) hva he'

theorem Orderly.endSegment (ht : t.Sound before) (hle : before ≤ now) (h : t.Orderly)
    (hs : t.get? i = some s) (hn : s.isFinished = false) (hs' : (s.stopAt now).Alike s')
    (hall : ∀ c ∈ t.children i, c.isFinished = true) : (t.endSegment i s').Orderly := by
  have hchange : Change now False t (t.endSegment i s') := .stop hs hn hs' False.elim
  intro c a sc sa e hc hca ha he
  obtain ⟨vc,hvc⟩ : ∃ vc, t.get? c = some vc := exists_get? (size_endSegment t i s' ▸ lt_size_of_get? hc)
  obtain ⟨u,hu,hlc,-⟩ := hchange.get? ht.rooted hvc
  cases get?_inj hc hu
  have hvca := hlc.parent ▸ hca
  by_cases hai : a = i
  · subst hai
    obtain ⟨x,hx⟩ := Segment.exists_stop (hall vc (mem_children.mpr ⟨c,hvc,hvca⟩))
    obtain ⟨r,hr,-⟩ := get?_endSegment_self ht.rooted hs hs'.parent
    cases get?_inj ha hr
    have hstop : e = max now s.start := Option.some.inj (he.symm.trans hs'.stop)
    exact ⟨x,hlc.stop hx,hstop ▸ ((ht.timely.stopped hvc hx).2.trans hle).trans (le_max_left _ _)⟩
  · obtain ⟨va,hva,hta,-⟩ := exists_times_of_endSegment ht.rooted hs hs'.parent ha hai
    obtain ⟨x,hx,hxe⟩ := h c a vc va e hvc hvca hva (Segment.stop_of_times hta ▸ he)
    exact ⟨x,hlc.stop hx,hxe⟩

theorem Orderly.change (ht : t.Sound before) (hle : before ≤ now) (h : t.Orderly)
    (hc : Change now True t t') : t'.Orderly := by
  cases hc with
  | quiet hq => exact h.congr (hq.sameTimes ht.rooted)
  | start b hq hs ho => exact h.start ht.rooted b hq (ho trivial) hs
  | stop hs hn hs' ho => exact h.endSegment ht hle hs hn hs' (ho trivial)
  | finalize hs _ hn => exact h.congr (sameTimes_finalize hs hn)

theorem Orderly.nested (htime : t.Timely now) (h : t.Orderly) : t.Nested := by
  intro c p sc sp hc hp hsp hf
  obtain ⟨e,he⟩ := Segment.exists_stop hf
  obtain ⟨x,hx,hxe⟩ := h c p sc sp e hc hp hsp he
  refine ⟨Segment.isFinished_of_stop hx,fun y hy => ?_⟩
  have hy' := TimeRange.mem_instants.mp hy
  refine TimeRange.mem_instants.mpr ⟨(htime.nested hc hp hsp).trans hy'.1,?_⟩
  simp only [Segment.timeRange,hx,he,Option.getD_some] at hy' ⊢
  exact hy'.2.trans_le hxe

/-- A child that is counted by its duration shares no time with another that has ended. -/
theorem Timely.disjoint (htime : t.Timely now) (p : ℕ) : t.Apart p := by
  intro a c sa sc ha hc hpa hpc hne hf hr
  refine Finset.disjoint_left.mpr fun x hxa hxc => ?_
  have hxa := TimeRange.mem_instants.mp hxa
  have hxc := TimeRange.mem_instants.mp hxc
  rcases Nat.lt_or_gt_of_ne hne with hlt | hlt
  · obtain ⟨e,he,hec⟩ := htime.apart ha hc hpa hpc hlt (Or.inl ⟨hf,hr⟩)
    simp only [Segment.timeRange,he,Option.getD_some] at hxa
    exact absurd (hxa.2.trans_le (hec.trans hxc.1)) (lt_irrefl x)
  · obtain ⟨e,he,hea⟩ := htime.apart hc ha hpc hpa hlt (Or.inr ⟨hf,hr⟩)
    simp only [Segment.timeRange,he,Option.getD_some] at hxc
    exact absurd (hxc.2.trans_le (hea.trans hxa.1)) (lt_irrefl x)

theorem Orderly.exclusiveTime_add (ht : t.Sound now) (h : t.Orderly) (hs : t.get? p = some s)
    (hf : s.isFinished = true) :
    s.exclusiveTime+(Segment.busy (t.children p)).card = s.duration :=
  (h.nested ht.timely).exclusiveTime_add ht.rooted ht.accounts (ht.timely.disjoint p) hs hf

theorem Change.child_of_finished (hc : Change now True t t') (hs : t.get? p = some s)
    (hf : s.isFinished = true) {c : ℕ} {u : Segment} (hu : t'.get? c = some u) (hp : u.parent = some p) :
    ∃ v, t.get? c = some v := by
  cases hc with
  | quiet hq => exact exists_get? (hq.size ▸ lt_size_of_get? hu)
  | start b hq _ ho =>
    by_cases hcn : c = t.size
    · subst hcn
      cases get?_inj (get?_start_size (lt_size_of_get? hq) _ b) hu
      cases Option.some.inj hp
      cases get?_inj hs hq
      simp [ho trivial] at hf
    · obtain ⟨v,hv,-⟩ := exists_of_start (lt_size_of_get? hq) hu hcn
      exact ⟨v,hv⟩
  | @stop i v v' _ _ _ _ => exact exists_get? (size_endSegment t i v' ▸ lt_size_of_get? hu)
  | finalize hv _ hn => exact exists_get? ((sameTimes_finalize hv hn).size ▸ lt_size_of_get? hu)

/-- The time in which the children of an ended segment ran is fixed. -/
theorem Orderly.busy_children_change (ht : t.Rooted) (htime : t.Timely before) (h : t.Orderly)
    (hc : Change now True t t') (hs : t.get? p = some s) (hf : s.isFinished = true) :
    Segment.busy (t'.children p) = Segment.busy (t.children p) := by
  have hl : t.Later t' := hc.later ht
  ext x
  simp only [Segment.mem_busy,mem_children]
  constructor
  · rintro ⟨u,⟨c,hu,hp⟩,hx⟩
    obtain ⟨v,hv⟩ := hc.child_of_finished hs hf hu hp
    obtain ⟨w,hw,hlw⟩ := hl hv
    cases get?_inj hu hw
    have hvp := hlw.parent ▸ hp
    have hvf := (h.nested htime c p v s hv hvp hs hf).1
    exact ⟨v,⟨c,hv,hvp⟩,Segment.timeRange_of_times (hlw.times_eq hvf) ▸ hx⟩
  · rintro ⟨v,⟨c,hv,hp⟩,hx⟩
    obtain ⟨w,hw,hlw⟩ := hl hv
    have hvf := (h.nested htime c p v s hv hp hs hf).1
    exact ⟨w,⟨c,hw,hlw.parent.trans hp⟩,(Segment.timeRange_of_times (hlw.times_eq hvf)).symm ▸ hx⟩

/-- Each result and the time in which the children ran make up the duration. -/
def Exact (t : SegmentTree) : Prop :=
  ∀ p s, t.get? p = some s → s.finalized = true →
    s.exclusive+(Segment.busy (t.children p)).card = s.duration

theorem Exact.change (ht : t.Sound before) (ho : t.Orderly) (h : t.Exact) (hc : Change now True t t') :
    t'.Exact := by
  intro p s' hs' hz'
  obtain ⟨s,hs,hls,hz⟩ := hc.finalized ht.rooted hs' hz'
  have hf : s.isFinished = true := hz.elim (ht.results.ended hs) fun h => h.2.1
  rw [ho.busy_children_change ht.rooted ht.timely hc hs hf,Segment.duration,
    Segment.timeRange_of_times (hls.times_eq hf)]
  rcases hz with hz | ⟨-,-,halike⟩
  · rw [(hls.finalized hz).2]
    exact h p s hs hz
  · have he : s'.exclusive = s.exclusiveTime := halike.exclusive
    rw [he]
    exact ho.exclusiveTime_add ht hs hf

theorem Exact.changes (ht : t.Sound before) (hle : before ≤ now) (ho : t.Orderly) (h : t.Exact)
    (hc : Changes now True t t') : t'.Orderly ∧ t'.Exact := by
  induction hc with
  | refl => exact ⟨ho,h⟩
  | tail hc' hc ih =>
    have ht' := ht.changes hle hc'
    exact ⟨ih.1.change ht' le_rfl hc,ih.2.change ht' ih.1 hc⟩

end TraceEngine.SegmentTree
