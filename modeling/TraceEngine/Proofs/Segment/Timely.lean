import TraceEngine.Proofs.Segment.Accounts

/-! Trees whose times agree with a clock that never goes back: no child starts before its parent, a
child that is counted by its duration ends within its parent, and it shares no time with the other
children. -/
namespace TraceEngine.SegmentTree

variable {t t' : SegmentTree} {before now : Time} {orderly : Prop} {i p : ℕ} {q s s' : Segment}

/-- The times of a tree at a time of the clock. -/
structure Timely (now : Time) (t : SegmentTree) : Prop where
  started : ∀ {i s}, t.get? i = some s → s.start ≤ now
  stopped : ∀ {i s e}, t.get? i = some s → s.stop = some e → s.start ≤ e ∧ e ≤ now
  nested : ∀ {c p sc sp}, t.get? c = some sc → sc.parent = some p → t.get? p = some sp →
    sp.start ≤ sc.start
  within : ∀ {c p sc sp x e}, t.get? c = some sc → sc.parent = some p → t.get? p = some sp →
    sc.stop = some x → sc.rangeRecorded = false → sp.stop = some e → x ≤ e
  /-- As long as children are not known to have run side by side, each starts after the end of the
  one before. -/
  sequential : ∀ {a b p sa sb sp}, t.get? a = some sa → t.get? b = some sb → t.get? p = some sp →
    sa.parent = some p → sb.parent = some p → a < b → sp.concurrentChildren = false →
    ∃ e, sa.stop = some e ∧ e ≤ sb.start
  apart : ∀ {a b p sa sb}, t.get? a = some sa → t.get? b = some sb → sa.parent = some p →
    sb.parent = some p → a < b →
    (sa.isFinished = true ∧ sa.rangeRecorded = false ∨ sb.isFinished = true ∧ sb.rangeRecorded = false) →
    ∃ e, sa.stop = some e ∧ e ≤ sb.start

theorem Timely.mono (h : t.Timely before) (hle : before ≤ now) : t.Timely now where
  started hs := (h.started hs).trans hle
  stopped hs he := ⟨(h.stopped hs he).1,(h.stopped hs he).2.trans hle⟩
  nested := h.nested
  within := h.within
  sequential := h.sequential
  apart := h.apart

theorem Timely.congr (h : t.Timely now) (hback : ∀ {j s'}, t'.get? j = some s' → ∃ s, t.get? j = some s ∧
      s'.times = s.times ∧ (s.rangeRecorded = true → s'.rangeRecorded = true) ∧
      s'.concurrentChildren = s.concurrentChildren) : t'.Timely now := by
  have hrec : ∀ {v v' : Segment}, (v.rangeRecorded = true → v'.rangeRecorded = true) →
      v'.rangeRecorded = false → v.rangeRecorded = false := by
    intro v v' h h'
    by_contra hv
    simp [h (by simpa using hv)] at h'
  constructor
  case started =>
    intro i s' hs'
    obtain ⟨s,hs,htimes,-⟩ := hback hs'
    exact Segment.start_of_times htimes ▸ h.started hs
  case stopped =>
    intro i s' e hs' he
    obtain ⟨s,hs,htimes,-⟩ := hback hs'
    obtain ⟨-,hstart,hstop⟩ := Segment.times_eq.mp htimes
    exact hstart ▸ h.stopped hs (hstop ▸ he)
  case nested =>
    intro c p sc' sp' hc' hp hsp'
    obtain ⟨sc,hc,htc,-⟩ := hback hc'
    obtain ⟨sp,hsp,htp,-⟩ := hback hsp'
    rw [Segment.start_of_times htc,Segment.start_of_times htp]
    exact h.nested hc (Segment.parent_of_times htc ▸ hp) hsp
  case within =>
    intro c p sc' sp' x e hc' hp hsp' hx hr he
    obtain ⟨sc,hc,htc,hrc,-⟩ := hback hc'
    obtain ⟨sp,hsp,htp,-⟩ := hback hsp'
    obtain ⟨hpar,-,hstop⟩ := Segment.times_eq.mp htc
    exact h.within hc (hpar ▸ hp) hsp (hstop ▸ hx) (hrec hrc hr) (Segment.stop_of_times htp ▸ he)
  case sequential =>
    intro a b p sa' sb' sp' ha' hb' hsp' hpa hpb hab hcon
    obtain ⟨sa,ha,hta,-⟩ := hback ha'
    obtain ⟨sb,hb,htb,-⟩ := hback hb'
    obtain ⟨sp,hsp,-,-,hc⟩ := hback hsp'
    obtain ⟨hpar,-,hstop⟩ := Segment.times_eq.mp hta
    rw [hstop,Segment.start_of_times htb]
    exact h.sequential ha hb hsp (hpar ▸ hpa) (Segment.parent_of_times htb ▸ hpb) hab (hc ▸ hcon)
  case apart =>
    intro a b p sa' sb' ha' hb' hpa hpb hab hor
    obtain ⟨sa,ha,hta,hra,-⟩ := hback ha'
    obtain ⟨sb,hb,htb,hrb,-⟩ := hback hb'
    obtain ⟨hpar,-,hstop⟩ := Segment.times_eq.mp hta
    rw [hstop,Segment.start_of_times htb]
    rw [Segment.isFinished_of_times hta,Segment.isFinished_of_times htb] at hor
    exact h.apart ha hb (hpar ▸ hpa) (Segment.parent_of_times htb ▸ hpb) hab
      (hor.imp (And.imp_right (hrec hra)) (And.imp_right (hrec hrb)))

theorem eq_zero_of_weigh {w : Segment → ℕ} (h : weigh w t = 0) (hs : t.get? i = some s) : w s = 0 :=
  Nat.eq_zero_of_le_zero ((le_weigh hs).trans_eq h)

/-- When no child is counted as one that runs, each has ended. -/
theorem Sums.exists_stop (h : t.Sums) (hq : t.get? p = some q) (hactive : q.activeChildren = 0)
    (hs : t.get? i = some s) (hp : s.parent = some p) : ∃ e, s.stop = some e := by
  have hzero := eq_zero_of_weigh ((h.active hq).symm.trans hactive) hs
  refine Segment.exists_stop ?_
  by_contra hf
  simp [running,hp,hf] at hzero

theorem concurrentChildren_of_start (hp : p < t.size) {b : Bool} {j : ℕ} {u : Segment}
    (hu : (t.start s p b).get? j = some u) (hj : j ≠ t.size) (hn : u.concurrentChildren = false) :
    ∃ v, t.get? j = some v ∧ v.concurrentChildren = false ∧ (j = p → v.activeChildren = 0) := by
  obtain ⟨v,hv,⟨-,rfl⟩ | ⟨hjp,rfl⟩⟩ := exists_of_start hp hu hj
  · simp only [Segment.childStart,Bool.or_eq_false_iff,decide_eq_false_iff_not] at hn
    exact ⟨v,hv,hn.1,fun _ => by omega⟩
  · exact ⟨u,hv,hn,fun h => absurd h hjp⟩

theorem Timely.start (ht : t.Rooted) (hsums : t.Sums) (h : t.Timely before) (hle : before ≤ now)
    (b : Bool) (hq : t.get? p = some q)
    (hs : ({ guid := s.guid, name := s.name, start := now } : Segment).Alike s) :
    (t.start s p b).Timely now := by
  have ht' := ht.start b hq hs
  have hp := lt_size_of_get? hq
  have hnew := get?_start_size hp s b
  have hstart : s.start = now := hs.start
  have hstop : s.stop = none := hs.stop
  have hsize : ∀ {j u}, (t.start s p b).get? j = some u → j < t.size+1 := by
    intro j u hu
    simpa [size_start] using lt_size_of_get? hu
  have hbefore : ∀ {j u}, (t.start s p b).get? j = some u → j < t.size →
      ∃ v, t.get? j = some v ∧ u.times = v.times ∧ u.rangeRecorded = v.rangeRecorded := by
    intro j u hu hj
    obtain ⟨v,hv,htimes,hrec,-⟩ := exists_times_of_start hp hu hj.ne
    exact ⟨v,hv,htimes,hrec⟩
  have hended : ∀ {j u e}, t.get? j = some u → u.stop = some e → e ≤ now :=
    fun hu he => (h.stopped hu he).2.trans hle
  constructor
  case started =>
    intro j u hu
    rcases (Nat.lt_succ_iff.mp (hsize hu)).lt_or_eq with hj | rfl
    · obtain ⟨v,hv,htimes,-⟩ := hbefore hu hj
      exact Segment.start_of_times htimes ▸ (h.started hv).trans hle
    · cases get?_inj hnew hu
      exact hstart.le
  case stopped =>
    intro j u e hu he
    rcases (Nat.lt_succ_iff.mp (hsize hu)).lt_or_eq with hj | rfl
    · obtain ⟨v,hv,htimes,-⟩ := hbefore hu hj
      obtain ⟨-,h1,h2⟩ := Segment.times_eq.mp htimes
      exact ⟨h1 ▸ (h.stopped hv (h2 ▸ he)).1,hended hv (h2 ▸ he)⟩
    · cases get?_inj hnew hu
      simp [hstop] at he
  case nested =>
    intro c a sc sa hc hca ha
    have hac := ht'.parent_lt hc hca
    rcases (Nat.lt_succ_iff.mp (hsize hc)).lt_or_eq with hj | rfl
    · obtain ⟨vc,hvc,htc,-⟩ := hbefore hc hj
      obtain ⟨va,hva,hta,-⟩ := hbefore ha (hac.trans hj)
      rw [Segment.start_of_times htc,Segment.start_of_times hta]
      exact h.nested hvc (Segment.parent_of_times htc ▸ hca) hva
    · cases get?_inj hnew hc
      obtain ⟨va,hva,hta,-⟩ := hbefore ha hac
      rw [Segment.start_of_times hta]
      exact ((h.started hva).trans hle).trans hstart.ge
  case within =>
    intro c a sc sa x e hc hca ha hx hr he
    have hac := ht'.parent_lt hc hca
    rcases (Nat.lt_succ_iff.mp (hsize hc)).lt_or_eq with hj | rfl
    · obtain ⟨vc,hvc,htc,hrec⟩ := hbefore hc hj
      obtain ⟨va,hva,hta,-⟩ := hbefore ha (hac.trans hj)
      obtain ⟨h1,-,h3⟩ := Segment.times_eq.mp htc
      exact h.within hvc (h1 ▸ hca) hva (h3 ▸ hx) (hrec ▸ hr) (Segment.stop_of_times hta ▸ he)
    · cases get?_inj hnew hc
      simp [hstop] at hx
  case sequential =>
    intro a c r sa sc sr ha hc hr hpa hpc hac hn
    have hrc := ht'.parent_lt hc hpc
    have hc' := hsize hc
    obtain ⟨va,hva,hta,-⟩ := hbefore ha (by omega)
    obtain ⟨vr,hvr,hcon,hactive⟩ := concurrentChildren_of_start hp hr (by omega) hn
    obtain ⟨h1,-,h3⟩ := Segment.times_eq.mp hta
    rcases (Nat.lt_succ_iff.mp hc').lt_or_eq with hj | rfl
    · obtain ⟨vc,hvc,htc,-⟩ := hbefore hc hj
      rw [h3,Segment.start_of_times htc]
      exact h.sequential hva hvc hvr (h1 ▸ hpa) (Segment.parent_of_times htc ▸ hpc) hac hcon
    · cases get?_inj hnew hc
      obtain rfl : p = r := Option.some.inj hpc
      obtain ⟨e,he⟩ := hsums.exists_stop hvr (hactive rfl) hva (h1 ▸ hpa)
      exact ⟨e,h3.trans he,(hended hva he).trans hstart.ge⟩
  case apart =>
    intro a c r sa sc ha hc hpa hpc hac hor
    have hc' := hsize hc
    obtain ⟨va,hva,hta,hra⟩ := hbefore ha (by omega)
    obtain ⟨h1,-,h3⟩ := Segment.times_eq.mp hta
    rcases (Nat.lt_succ_iff.mp hc').lt_or_eq with hj | rfl
    · obtain ⟨vc,hvc,htc,hrc⟩ := hbefore hc hj
      rw [h3,Segment.start_of_times htc]
      rw [Segment.isFinished_of_times hta,Segment.isFinished_of_times htc,hra,hrc] at hor
      exact h.apart hva hvc (h1 ▸ hpa) (Segment.parent_of_times htc ▸ hpc) hac hor
    · cases get?_inj hnew hc
      rcases hor with ⟨hf,-⟩ | ⟨hf,-⟩
      · obtain ⟨e,he⟩ := Segment.exists_stop (Segment.isFinished_of_times hta ▸ hf)
        exact ⟨e,h3.trans he,(hended hva he).trans hstart.ge⟩
      · simp [Segment.isFinished,hstop] at hf

/-- A parent that does not count a child by its range has not seen children run side by side, and
has not ended before the child. -/
theorem countsRange_eq_false {r : TimeRange} (h : q.countsRange r = false) :
    q.concurrentChildren = false ∧ ∀ {e}, q.stop = some e → r.stop ≤ e := by
  simp only [Segment.countsRange,Bool.or_eq_false_iff] at h
  refine ⟨h.1,fun {e} he => ?_⟩
  simpa [Segment.endedBefore,he] using h.2

theorem exists_stop_of_endSegment (ht : t.Rooted) (hs : t.get? i = some s)
    (hs' : (s.stopAt now).Alike s') {e : Option Time} (hstop : s'.stop = e) {r : Bool}
    (hu : (t.endSegment i s').get? i = some { s' with rangeRecorded := r }) {j : ℕ} {v : Segment}
    (hv : (t.endSegment i s').get? j = some v) :
    ∃ v₀, t.get? j = some v₀ ∧ v.parent = v₀.parent ∧ v.start = v₀.start ∧
      v.concurrentChildren = v₀.concurrentChildren ∧
      (j ≠ i → v.stop = v₀.stop ∧ v.rangeRecorded = v₀.rangeRecorded) ∧
      (j = i → v.stop = e ∧ v.rangeRecorded = r) := by
  by_cases hj : j = i
  · subst hj
    cases get?_inj hu hv
    exact ⟨s,hs,hs'.parent,hs'.start,hs'.concurrentChildren,fun h => absurd rfl h,fun _ => ⟨hstop,rfl⟩⟩
  · obtain ⟨v₀,hv₀,⟨-,rfl⟩ | ⟨-,rfl⟩⟩ := exists_of_endSegment ht hs hs'.parent hv hj
    · rw [Segment.childComplete_eq]
      exact ⟨v₀,hv₀,rfl,rfl,rfl,fun _ => ⟨rfl,rfl⟩,fun h => absurd h hj⟩
    · exact ⟨v,hv₀,rfl,rfl,rfl,fun _ => ⟨rfl,rfl⟩,fun h => absurd h hj⟩

theorem Timely.endSegment (ht : t.Rooted) (hranges : t.Ranges) (h : t.Timely before) (hle : before ≤ now)
    (hs : t.get? i = some s) (hn : s.isFinished = false) (hs' : (s.stopAt now).Alike s') :
    (t.endSegment i s').Timely now := by
  have hchange : Change now False t (t.endSegment i s') := .stop hs hn hs' False.elim
  have ht' := hchange.rooted ht
  obtain ⟨r,hu,hcounts⟩ := get?_endSegment_self ht hs hs'.parent
  have hrec := hranges.rangeRecorded_eq_false hs hn
  rw [show s'.rangeRecorded = false from hs'.rangeRecorded.trans hrec] at hcounts
  have hstart : s'.start = s.start := hs'.start
  have hstop : s'.stop = some now := by
    rw [hs'.stop,Segment.stopAt,max_eq_left ((h.started hs).trans hle)]
  have hstop_le : s'.timeRange.stop = now := by simp [Segment.timeRange,hstop]
  have hnone : s.stop = none := by simpa [Segment.isFinished] using hn
  have hback := fun {j v} (hv : (t.endSegment i s').get? j = some v) =>
    exists_stop_of_endSegment ht hs hs' hstop hu hv
  have hkept : ∀ {j v e}, t.get? j = some v → v.stop = some e → j ≠ i := by
    rintro j v e hv he rfl
    cases get?_inj hs hv
    simp [hnone] at he
  have hended : ∀ {j v e}, t.get? j = some v → v.stop = some e → e ≤ now :=
    fun hv he => (h.stopped hv he).2.trans hle
  have hunmarked : ∀ {p q}, s.parent = some p → t.get? p = some q → r = false →
      q.concurrentChildren = false ∧ ∀ {e}, q.stop = some e → now ≤ e := by
    intro p q hp hq hr
    have hcount := hcounts (hs'.parent.trans hp) hq
    rw [hr,Bool.false_or] at hcount
    have := countsRange_eq_false hcount.symm
    rwa [hstop_le] at this
  constructor
  case started =>
    intro j u hj
    obtain ⟨v,hv,-,hst,-⟩ := hback hj
    exact hst ▸ (h.started hv).trans hle
  case stopped =>
    intro j u e hj he
    obtain ⟨v,hv,-,hst,-,hother,hself⟩ := hback hj
    rw [hst]
    by_cases hji : j = i
    · cases Option.some.inj ((hself hji).1.symm.trans he)
      exact ⟨(h.started hv).trans hle,le_rfl⟩
    · have he' := (hother hji).1 ▸ he
      exact ⟨(h.stopped hv he').1,hended hv he'⟩
  case nested =>
    intro c a sc sa hc hca ha
    obtain ⟨vc,hvc,hpc,hstc,-⟩ := hback hc
    obtain ⟨va,hva,-,hsta,-⟩ := hback ha
    rw [hstc,hsta]
    exact h.nested hvc (hpc ▸ hca) hva
  case within =>
    intro c a sc sa x e hc hca ha hx hr he
    obtain ⟨vc,hvc,hpc,-,-,hotherc,hselfc⟩ := hback hc
    obtain ⟨va,hva,-,-,-,hothera,hselfa⟩ := hback ha
    have hac := ht'.parent_lt hc hca
    by_cases hci : c = i
    · subst hci
      cases get?_inj hs hvc
      cases Option.some.inj ((hselfc rfl).1.symm.trans hx)
      exact (hunmarked (hpc ▸ hca) hva ((hselfc rfl).2 ▸ hr)).2 ((hothera hac.ne).1 ▸ he)
    · have hx' := (hotherc hci).1 ▸ hx
      by_cases hai : a = i
      · cases Option.some.inj ((hselfa hai).1.symm.trans he)
        exact hended hvc hx'
      · exact h.within hvc (hpc ▸ hca) hva hx' ((hotherc hci).2 ▸ hr) ((hothera hai).1 ▸ he)
  case sequential =>
    intro a c p sa sc sp ha hc hsp hpa hpc hac hcon
    obtain ⟨va,hva,hpara,-,-,hothera,-⟩ := hback ha
    obtain ⟨vc,hvc,hparc,hstc,-⟩ := hback hc
    obtain ⟨vp,hvp,-,-,hconp,-⟩ := hback hsp
    obtain ⟨e,he,hec⟩ := h.sequential hva hvc hvp (hpara ▸ hpa) (hparc ▸ hpc) hac (hconp ▸ hcon)
    exact ⟨e,(hothera (hkept hva he)).1.trans he,hstc ▸ hec⟩
  case apart =>
    intro a c p sa sc ha hc hpa hpc hac hor
    obtain ⟨va,hva,hpara,-,-,hothera,hselfa⟩ := hback ha
    obtain ⟨vc,hvc,hparc,hstc,-,hotherc,hselfc⟩ := hback hc
    obtain ⟨vp,hvp⟩ := ht.exists_parent hva (hpara ▸ hpa)
    suffices hold : ∃ e, va.stop = some e ∧ e ≤ vc.start by
      obtain ⟨e,he,hec⟩ := hold
      exact ⟨e,(hothera (hkept hva he)).1.trans he,hstc ▸ hec⟩
    -- the mark of the segment that ends shows that the children ran one after another until then
    have hsequential : r = false → s.parent = some p → ∃ e, va.stop = some e ∧ e ≤ vc.start :=
      fun hr hp => h.sequential hva hvc hvp (hpara ▸ hpa) (hparc ▸ hpc) hac (hunmarked hp hvp hr).1
    rcases hor with ⟨hf,hr⟩ | ⟨hf,hr⟩
    · by_cases hai : a = i
      · subst hai
        cases get?_inj hs hva
        exact hsequential ((hselfa rfl).2 ▸ hr) (hpara ▸ hpa)
      · refine h.apart hva hvc (hpara ▸ hpa) (hparc ▸ hpc) hac (Or.inl ⟨?_,(hothera hai).2 ▸ hr⟩)
        rwa [Segment.isFinished,← (hothera hai).1]
    · by_cases hci : c = i
      · subst hci
        cases get?_inj hs hvc
        exact hsequential ((hselfc rfl).2 ▸ hr) (hparc ▸ hpc)
      · refine h.apart hva hvc (hpara ▸ hpa) (hparc ▸ hpc) hac (Or.inr ⟨?_,(hotherc hci).2 ▸ hr⟩)
        rwa [Segment.isFinished,← (hotherc hci).1]

theorem Timely.change (ht : t.Rooted) (ha : t.Accounts) (h : t.Timely before) (hle : before ≤ now)
    (hc : Change now orderly t t') : t'.Timely now := by
  cases hc with
  | quiet hq =>
    refine (h.mono hle).congr fun {j s'} hs' => ?_
    obtain ⟨s,hs,hk⟩ := hq.exists_get? ht hs'
    exact ⟨s,hs,hk.times,hk.recorded,hk.concurrentChildren⟩
  | start b hq hs _ => exact h.start ht ha.sums hle b hq hs
  | stop hs hn hs' _ => exact h.endSegment ht ha.ranges hle hs hn hs'
  | @finalize k sk hk _ hn =>
    refine (h.mono hle).congr fun {j u} hu => ?_
    obtain ⟨v,hv,⟨-,rfl,hu'⟩ | ⟨-,rfl⟩⟩ := exists_of_finalize hk hn hu
    · exact ⟨v,hv,hu'.times_eq,fun hr => hu'.rangeRecorded.trans hr,hu'.concurrentChildren⟩
    · exact ⟨u,hv,rfl,id,rfl⟩

end TraceEngine.SegmentTree
