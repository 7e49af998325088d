import TraceEngine.Proofs.Segment.Recording

/-! How far up the time of a segment is known. On the way up from the end of a segment every
ancestor takes up its range, until one runs still or ran at least as long; those further up then
know the time of that one. -/
namespace TraceEngine.SegmentTree

variable {t t' : SegmentTree} {before now : Time} {orderly : Prop} {b : Backtrace} {i p x : ℕ}
  {q s s' : Segment}

theorem Ranges.subset (ht : t.Rooted) (h : t.Ranges) (hc : Change now orderly t t') {j : ℕ}
    {v v' : Segment} (hv : t.get? j = some v) (hv' : t'.get? j = some v') :
    v.childrenRanges.instants ⊆ v'.childrenRanges.instants := by
  suffices hback : ∃ u, t.get? j = some u ∧ u.childrenRanges.instants ⊆ v'.childrenRanges.instants by
    obtain ⟨u,hu,hsub⟩ := hback
    rwa [get?_inj hv hu]
  cases hc with
  | quiet hq =>
    cases hq with
    | relabel hs _ => exact ⟨v',by simpa [get?,hs] using hv',subset_rfl⟩
    | @retouch k f hf =>
      obtain ⟨u,hu,⟨rfl,rfl⟩ | ⟨-,rfl⟩⟩ := exists_of_modify hv'
      · exact ⟨u,hu,by rw [(hf u hu).childrenRanges]⟩
      · exact ⟨v',hu,subset_rfl⟩
    | absorb _ _ hc _ ha hp _ => exact h.subset_recordDescendant ht hc ha hp _ hv'
  | start b hq _ _ =>
    obtain ⟨u,hu,-,-,he,-⟩ := exists_times_of_start (lt_size_of_get? hq) hv' (lt_size_of_get? hv).ne
    exact ⟨u,hu,by rw [he]⟩
  | stop hs _ hs' _ => exact h.subset_endSegment ht hs hs' hv'
  | finalize hs _ hn =>
    obtain ⟨u,hu,⟨-,rfl,hv⟩ | ⟨-,rfl⟩⟩ := exists_of_finalize hs hn hv'
    · have he : v'.childrenRanges = u.childrenRanges := hv.childrenRanges
      exact ⟨u,hu,he ▸ subset_rfl⟩
    · exact ⟨v',hu,subset_rfl⟩

theorem Changes.subset (ht : t.Rooted) (ha : t.Accounts) (hc : Changes now orderly t t') {j : ℕ}
    {v v' : Segment} (hv : t.get? j = some v) (hv' : t'.get? j = some v') :
    v.childrenRanges.instants ⊆ v'.childrenRanges.instants := by
  induction hc generalizing v' with
  | refl => rw [get?_inj hv hv']
  | tail hc' hc ih =>
    obtain ⟨u,hu,-⟩ := Changes.later ht hc' hv
    exact (ih hu).trans ((Changes.accounts ht ha hc').ranges.subset (Changes.rooted ht hc') hc hu hv')

/-- The ancestor `a` has taken up the range of the segment `d`, or a segment between them has not
ended before. -/
def Known (t : SegmentTree) (d a : ℕ) : Prop :=
  ∀ sd sa, t.get? d = some sd → t.get? a = some sa → sd.timeRange.instants ⊆ sa.childrenRanges.instants ∨
    ∃ m sm, m ∈ t.ancestors d ∧ a ∈ t.ancestors m ∧ t.get? m = some sm ∧
      sm.endedBefore sd.timeRange.stop = false

/-- Every ancestor above the parent knows of the segment. -/
def Reached (t : SegmentTree) (d : ℕ) : Prop :=
  ∀ sd a, t.get? d = some sd → a ∈ t.ancestors d → sd.parent ≠ some a → t.Known d a

theorem Known.change (ht : t.Sound before) (hle : before ≤ now) {d a : ℕ} {sd : Segment}
    (hd : t.get? d = some sd) (hf : sd.isFinished = true) (had : a ∈ t.ancestors d) (h : t.Known d a)
    (hc : Change now orderly t t') : t'.Known d a := by
  intro sd' sa' hd' ha'
  have hl : t.Later t' := hc.later ht.rooted
  obtain ⟨u,hu,hlater⟩ := hl hd
  cases get?_inj hu hd'
  have hrange := Segment.timeRange_of_times (hlater.times_eq hf)
  obtain ⟨sa,hsa⟩ := exists_get?_of_mem_ancestors had
  rw [hrange]
  rcases h sd sa hd hsa with hsub | ⟨m,sm,hmd,ham,hm,hended⟩
  · exact Or.inl (hsub.trans (ht.accounts.ranges.subset ht.rooted hc hsa ha'))
  · obtain ⟨sm',hm',-,hstop⟩ := hc.get? ht.rooted hm
    refine Or.inr ⟨m,sm',?_,?_,hm',?_⟩
    · rwa [hl.ancestors (lt_size_of_get? hd)]
    · rwa [hl.ancestors (lt_size_of_get? hm)]
    · rcases hstop with hstop | ⟨-,hstop⟩
      · rwa [Segment.endedBefore,hstop]
      · -- the segment between ends just now, and so no earlier than the other
        obtain ⟨e,he⟩ := Segment.exists_stop hf
        have hend : e ≤ max now sm.start :=
          ((ht.timely.stopped hd he).2.trans hle).trans (le_max_left _ _)
        simp only [Segment.endedBefore,hstop,Segment.timeRange,he,Option.any_some,Option.getD_some,
          decide_eq_false_iff_not]
        exact not_lt.mpr hend

theorem Reached.change (ht : t.Sound before) (hle : before ≤ now) {d : ℕ} {sd : Segment}
    (hd : t.get? d = some sd) (hf : sd.isFinished = true) (h : t.Reached d)
    (hc : Change now orderly t t') : t'.Reached d := by
  intro sd' a hd' had hpar
  have hl : t.Later t' := hc.later ht.rooted
  obtain ⟨u,hu,hlater⟩ := hl hd
  cases get?_inj hu hd'
  rw [hl.ancestors (lt_size_of_get? hd)] at had
  exact (h sd a hd had (hlater.parent ▸ hpar)).change ht hle hd hf had hc

theorem Reached.changes (ht : t.Sound before) (hle : before ≤ now) {d : ℕ} {sd : Segment}
    (hd : t.get? d = some sd) (hf : sd.isFinished = true) (h : t.Reached d)
    (hc : Changes now orderly t t') : t'.Reached d := by
  induction hc with
  | refl => exact h
  | tail hc' hc ih =>
    obtain ⟨u,hu,hlater⟩ := Changes.later ht.rooted hc' hd
    exact Reached.change (ht.changes hle hc') le_rfl hu (hlater.isFinished hf) ih hc

/-- Each ancestor on the way up takes up the range, and those above the last one have a segment
between that has not ended before. -/
theorem known_descendantComplete (ht : t.Rooted) (hacc : t.Accounts) {d c a : ℕ} {sd sc : Segment}
    (h : t.Rising d c a sd sc) {r : ℕ} (hr : r = a ∨ r ∈ t.ancestors a) :
    (t.descendantComplete sd.timeRange c a).Known d r := by
  induction a using Nat.strong_induction_on generalizing t c sc with
  | _ a ih =>
    obtain ⟨sa,ha⟩ := ht.exists_parent h.child h.parent
    have hq := h.quiet ha
    have htimes := hq.sameTimes ht
    have ht' := htimes.rooted ht
    have ha' := h.get?_parent ht ha
    have hsub : sd.timeRange.instants ⊆ (sa.absorb sd.timeRange sc).childrenRanges.instants := by
      rw [(instants_absorb (hacc.ranges.separated ha) _ _).2]
      split
      · exact Finset.subset_union_right
      · exact Finset.subset_union_right.trans Finset.subset_union_left
    rcases descendantComplete_step ht h.child ha h.parent sd.timeRange with
      ⟨he,hlast⟩ | ⟨next,hn,hend,he⟩
    · rw [he]
      intro sd' sr hd' hsr
      cases Option.some.inj ((h.get?_late ht ha).symm.trans hd')
      rcases hr with rfl | hr
      · exact Or.inl (get?_inj ha' hsr ▸ hsub)
      · obtain ⟨sa₂,next,hsa₂,hnext,-⟩ := exists_parent_of_mem_ancestors hr
        cases get?_inj ha hsa₂
        have had := h.mem_ancestors ht
        refine Or.inr ⟨a,_,by rwa [htimes.ancestors],by rwa [htimes.ancestors],ha',?_⟩
        rw [Segment.endedBefore,Segment.stop_of_times (keeps_absorb sd.timeRange sa sc).1]
        exact hlast next hnext
    · rw [he]
      have hrising := h.next ht ha hn (Segment.isFinished_of_endedBefore hend)
      rcases hr with rfl | hr
      · intro sd' sr hd' hsr
        have hquiets := quiets_descendantComplete ht' hrising
        obtain ⟨u,hu,htu⟩ := (Quiets.sameTimes ht' hquiets).get? hrising.late
        cases get?_inj hu hd'
        rw [Segment.timeRange_of_times htu]
        have hchanges : Changes 0 False _ _ := Quiets.changes hquiets
        exact Or.inl (hsub.trans (Changes.subset ht' (hacc.quiet ht hq) hchanges ha' hsr))
      · rw [ht.ancestors_eq ha hn] at hr
        exact ih next (ht.parent_lt ha hn) ht' (hacc.quiet ht hq) hrising
          ((List.mem_cons.mp hr).imp_right fun hr => by rwa [htimes.ancestors])

theorem reached_countUp (ht : t.Rooted) (hacc : t.Accounts) (hs : t.get? i = some s)
    (hn : s.isFinished = false) (hs' : (s.stopAt now).Alike s') : (t.countUp i s').Reached i := by
  intro sd a hd had hpar
  have hchange : Change now False t (t.endSegment i s') := .stop hs hn hs' False.elim
  have ht' := hchange.rooted ht
  have htimes := Quiets.sameTimes ht' (quiets_countUp ht hs hn hs')
  obtain ⟨p,hps,hap⟩ : ∃ p, s'.parent = some p ∧ a ∈ (t.endSegment i s').ancestors p := by
    obtain ⟨u,p,hu,hp,hap⟩ := exists_parent_of_mem_ancestors had
    cases get?_inj hd hu
    obtain ⟨r,hr,-⟩ := get?_endSegment_self ht hs hs'.parent
    obtain ⟨v,hv,htv⟩ := htimes.get? hr
    cases get?_inj hd hv
    refine ⟨p,Segment.parent_of_times htv ▸ hp,?_⟩
    rw [← htimes.ancestors]
    exact hap.resolve_left fun h => hpar (h ▸ hp)
  obtain ⟨q,hq⟩ := ht.exists_parent hs (hs'.parent ▸ hps)
  have hlt : p < i := ht.parent_lt hs (hs'.parent ▸ hps)
  have hget := get?_endSegment hs hps hq hlt.ne
  have hi := (hget i).trans (if_pos rfl)
  have hqp := (hget p).trans ((if_neg hlt.ne).trans (if_pos rfl))
  have htq := (keeps_childComplete s'.timeRange q).1
  have hq' : (t.modify i fun _ => s').get? p = some q := by
    rw [get?_modify,if_neg hlt.ne',hq]
  have hup : t.countUp i s' = (t.modify i fun _ => s').childComplete p i s'.timeRange := by
    simp only [countUp,hps]
  rw [childComplete_of_get? hq',← endSegment_of_parent hps] at hup
  cases hf : q.isFinished with
  | false =>
    rw [hf,if_neg (by simp)] at hup
    rw [hup]
    intro sd sa hsd hsa
    have hpi : p ∈ (t.endSegment i s').ancestors i := by
      rw [ht'.ancestors_eq hi hps]
      exact List.mem_cons_self
    refine Or.inr ⟨p,_,hpi,hap,hqp,?_⟩
    have hnone : q.stop = none := by simpa [Segment.isFinished] using hf
    rw [Segment.endedBefore,Segment.stop_of_times htq,hnone,Option.any_none]
  | true =>
    rw [hf,if_pos rfl] at hup
    have hasync : Quiet (t.endSegment i s') { t.endSegment i s' with isAsync := true } :=
      .relabel rfl rfl
    obtain ⟨v,next,hv,hnext,hanext⟩ := exists_parent_of_mem_ancestors hap
    cases get?_inj hqp hv
    rw [Segment.parent_of_times htq] at hnext
    rw [hnext] at hup
    rw [hup]
    refine known_descendantComplete ((hasync.sameTimes ht').rooted ht')
      ((hacc.change ht hchange).quiet ht' hasync) (rising_endSegment ht hs hn hs' hps hq hf hnext) ?_
    rwa [(hasync.sameTimes ht').ancestors]

/-- Every segment that has ended is known above its parent. -/
def AllReached (t : SegmentTree) : Prop :=
  ∀ d sd, t.get? d = some sd → sd.isFinished = true → t.Reached d

theorem AllReached.changes (ht : t.Sound before) (hle : before ≤ now) (h : t.AllReached)
    (hc : Changes now orderly t t')
    (hnew : ∀ {d sd}, t'.get? d = some sd → sd.isFinished = true →
      t'.Reached d ∨ ∃ s, t.get? d = some s ∧ s.isFinished = true) : t'.AllReached := by
  intro d sd hd hf
  rcases hnew hd hf with hreached | ⟨s,hs,hsf⟩
  · exact hreached
  · exact (h d s hs hsf).changes ht hle hs hsf hc

theorem AllReached.quiet (ht : t.Sound now) (h : t.AllReached) (hq : Quiet t t') : t'.AllReached := by
  have hc : Changes now False t t' := .single (.quiet hq)
  refine h.changes ht le_rfl hc fun {d sd} hd hf => Or.inr ?_
  obtain ⟨s,hs,hk⟩ := hq.exists_get? ht.rooted hd
  exact ⟨s,hs,Segment.isFinished_of_times hk.times ▸ hf⟩

theorem AllReached.start (ht : t.Sound before) (hle : before ≤ now) (h : t.AllReached) (b : Bool)
    (hq : t.get? p = some q)
    (hs : ({ guid := s.guid, name := s.name, start := now } : Segment).Alike s) :
    (t.start s p b).AllReached := by
  refine h.changes ht hle (.single (.start b hq hs False.elim)) fun {d sd} hd hf => Or.inr ?_
  by_cases hdn : d = t.size
  · subst hdn
    cases get?_inj (get?_start_size (lt_size_of_get? hq) s b) hd
    have hstop : s.stop = none := hs.stop
    simp [Segment.isFinished,hstop] at hf
  · obtain ⟨v,hv,htimes,-⟩ := exists_times_of_start (lt_size_of_get? hq) hd hdn
    exact ⟨v,hv,Segment.isFinished_of_times htimes ▸ hf⟩

theorem AllReached.finish (ht : t.Sound before) (hle : before ≤ now) (h : t.AllReached) (b : Backtrace)
    (i : ℕ) : (t.finish b i now).AllReached := by
  refine h.changes ht hle (changes_finish ht.rooted i False.elim) fun {d sd} hd hf => ?_
  by_cases hdi : d = i
  · subst hdi
    rcases t.finish_cases b d now with he | ⟨s,hs,hn⟩
    · exact Or.inr ⟨sd,he ▸ hd,hf⟩
    · obtain ⟨s',halike,hrest,-⟩ := exists_countUp b now False ht.rooted hs hn
      have hquiets := quiets_countUp ht.rooted hs hn halike
      have hup : Changes now False t (t.countUp d s') :=
        .head (.stop hs hn halike False.elim) (Quiets.changes hquiets)
      have htimes := Quiets.sameTimes (ht.rooted.endSegment hs hn halike) hquiets
      obtain ⟨u,hu,huf⟩ := htimes.isFinished_of_endSegment ht.rooted hs halike
      have hreached := reached_countUp ht.rooted ht.accounts hs hn halike
      exact Or.inl (hreached.changes (ht.changes hle hup) le_rfl hu huf hrest)
  · exact Or.inr (isFinished_of_finish ht.rooted hd hf hdi)

theorem AllReached.finishAll (ht : t.Sound before) (hle : before ≤ now) (h : t.AllReached)
    (b : Backtrace) : (t.finishAll b now).AllReached := by
  have hstep : ∀ {t : SegmentTree} (i : ℕ), t.Sound now ∧ t.AllReached →
      (t.finish b i now).Sound now ∧ (t.finish b i now).AllReached := by
    rintro t i ⟨ht,h⟩
    have hc : Changes now False t (t.finish b i now) := changes_finish ht.rooted i False.elim
    exact ⟨ht.changes le_rfl hc,h.finish ht le_rfl b i⟩
  exact (finishAll_induction (P := fun t => t.Sound now ∧ t.AllReached) ⟨ht.mono hle,h⟩ hstep).2

theorem Timely.start_le_of_mem_ancestors (ht : t.Rooted) (h : t.Timely now) {a d : ℕ}
    {sa sd : Segment} (hd : t.get? d = some sd) (ha : t.get? a = some sa) (had : a ∈ t.ancestors d) :
    sa.start ≤ sd.start := by
  induction d using Nat.strong_induction_on generalizing sd with
  | _ d ih =>
    obtain ⟨sd₂,p,hd₂,hp,hap⟩ := exists_parent_of_mem_ancestors had
    cases get?_inj hd hd₂
    obtain ⟨sp,hsp⟩ := ht.exists_parent hd hp
    have hle := h.nested hd hp hsp
    rcases hap with rfl | hap
    · rwa [get?_inj ha hsp]
    · exact (ih p (ht.parent_lt hd hp) hsp hap).trans hle

/-- When all segments have ended, an instant in which something ran below a segment is in its
coverage, or some child ran in it that is counted by its duration. -/
theorem AllReached.covered (ht : t.Sound now) (h : t.AllReached)
    (hall : ∀ {i s}, t.get? i = some s → s.isFinished = true) (hs : t.get? p = some s) {d : ℕ}
    {sd : Segment} (hd : t.get? d = some sd) (hpd : p ∈ t.ancestors d)
    (hx : x ∈ sd.timeRange.instants) :
    x ∈ s.childrenRanges.instants ∨ ∃ c ∈ t.counted p, x ∈ t.instants c := by
  induction d using Nat.strong_induction_on generalizing sd with
  | _ d ih =>
    by_cases hpar : sd.parent = some p
    · cases hr : sd.rangeRecorded with
      | true => exact Or.inl (ht.accounts.ranges.covers hd hpar hs hr hx)
      | false => exact Or.inr ⟨d,mem_counted.mpr ⟨sd,hd,hpar,hall hd,hr⟩,(instants_of_get? hd).symm ▸ hx⟩
    · rcases h d sd hd (hall hd) sd p hd hpd hpar sd s hd hs with hsub | ⟨m,sm,hmd,hpm,hm,hended⟩
      · exact Or.inl (hsub hx)
      · -- the segment between ran from before the start of `d` until its end at least
        have hxm : x ∈ sm.timeRange.instants := by
          obtain ⟨e,he⟩ := Segment.exists_stop (hall hm)
          have hstart := ht.timely.start_le_of_mem_ancestors ht.rooted hd hm hmd
          simp only [Segment.endedBefore,he,Option.any_some,decide_eq_false_iff_not] at hended
          have hx' := TimeRange.mem_instants.mp hx
          refine TimeRange.mem_instants.mpr ⟨hstart.trans hx'.1,?_⟩
          simpa [Segment.timeRange,he] using hx'.2.trans_le (not_lt.mp hended)
        exact ih m (lt_of_mem_ancestors hmd) hm hpm hxm

/-- A result that is made when all segments have ended leaves out at least the time in which
something ran below. -/
theorem AllReached.exclusiveTime_add_le (ht : t.Sound now) (h : t.AllReached)
    (hall : ∀ {i s}, t.get? i = some s → s.isFinished = true) (hs : t.get? p = some s) :
    s.exclusiveTime+(s.timeRange.instants ∩ Segment.busy (t.descendants p)).card ≤ s.duration := by
  have hsub : s.timeRange.instants ∩ Segment.busy (t.descendants p) ⊆
      (t.counted p).biUnion t.instants ∪ s.childrenRanges.instants ∩ s.timeRange.instants := by
    intro x hx
    obtain ⟨hxs,hxb⟩ := Finset.mem_inter.mp hx
    obtain ⟨sd,hsd,hxd⟩ := Segment.mem_busy.mp hxb
    obtain ⟨d,hd,hpd⟩ := mem_descendants.mp hsd
    rcases h.covered ht hall hs hd hpd hxd with hx | ⟨c,hc,hx⟩
    · exact Finset.mem_union_right _ (Finset.mem_inter.mpr ⟨hx,hxs⟩)
    · exact Finset.mem_union_left _ (Finset.mem_biUnion.mpr ⟨c,hc,hx⟩)
  have hcard := ((Finset.card_le_card hsub).trans (Finset.card_union_le _ _)).trans
    (Nat.add_le_add_right Finset.card_biUnion_le _)
  have hle : (s.timeRange.instants ∩ Segment.busy (t.descendants p)).card ≤ s.duration := by
    rw [Segment.duration_eq_card]
    exact Finset.card_le_card Finset.inter_subset_left
  rw [ht.accounts.exclusiveTime_eq hs,Nat.sub_sub]
  exact (Nat.add_le_add_right (Nat.sub_le_sub_left hcard _) _).trans (Nat.sub_add_cancel hle).le

theorem AllReached.exclusive_close_add_le (ht : t.Sound before) (hle : before ≤ now) (h : t.AllReached)
    (hp : t.Pending p) (b : Backtrace) {u : Segment} (hu : (t.close b now).get? p = some u) :
    u.exclusive+(u.timeRange.instants ∩ Segment.busy ((t.close b now).descendants p)).card ≤
      u.duration := by
  obtain ⟨hchanges,hall⟩ := changes_finishAll b now False ht.rooted
  have htimes := close_sameTimes t b now
  obtain ⟨s,hs,hsu⟩ := htimes.symm.get? hu
  obtain ⟨v,hv,halike⟩ := get?_close b now hs
  cases get?_inj hu hv
  rw [if_pos (hp.finishAll ht.rooted b now s hs).1] at halike
  have hexclusive : u.exclusive = s.exclusiveTime := halike.exclusive
  rw [hexclusive,htimes.busy_descendants,Segment.duration,← Segment.timeRange_of_times hsu]
  exact (h.finishAll ht hle b).exclusiveTime_add_le (ht.changes hle hchanges) hall hs

end TraceEngine.SegmentTree
