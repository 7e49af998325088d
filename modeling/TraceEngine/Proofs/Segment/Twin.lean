import TraceEngine.Proofs.Segment.Standing

/-! Two trees that the same operations made and that differ in when segments get their results. Their
segments have the same times and the same accounts, and every operation keeps it that way. -/
namespace TraceEngine

/-- Two segments with the same times and accounts. If they are on the same side of both limits, they
get their results on the same occasion. -/
structure Segment.Twin (same : Prop) (s s' : Segment) : Prop where
  accounts : SegmentTree.SameAccounts s s'
  concurrentChildren : s'.concurrentChildren = s.concurrentChildren
  recordOnFinish : same → s'.recordOnFinish = s.recordOnFinish

namespace Segment.Twin

variable {same : Prop} {s s' u u' : Segment}

theorem refl (same : Prop) (s : Segment) : Twin same s s := ⟨.refl s,rfl,fun _ => rfl⟩

theorem symm (h : Twin same s s') : Twin same s' s :=
  ⟨h.accounts.symm,h.concurrentChildren.symm,fun hs => (h.recordOnFinish hs).symm⟩

theorem trans {s'' : Segment} (h : Twin same s s') (h' : Twin same s' s'') : Twin same s s'' :=
  ⟨h.accounts.trans h'.accounts,h'.concurrentChildren.trans h.concurrentChildren,
    fun hs => (h'.recordOnFinish hs).trans (h.recordOnFinish hs)⟩

theorem parent (h : Twin same s s') : s'.parent = s.parent := parent_of_times h.accounts.times

theorem timeRange (h : Twin same s s') : s'.timeRange = s.timeRange := timeRange_of_times h.accounts.times

theorem isFinished (h : Twin same s s') : s'.isFinished = s.isFinished :=
  isFinished_of_times h.accounts.times

theorem endedBefore (h : Twin same s s') (e : Time) : s'.endedBefore e = s.endedBefore e := by
  rw [Segment.endedBefore,Segment.endedBefore,stop_of_times h.accounts.times]

theorem countsRange (h : Twin same s s') (r : TimeRange) : s'.countsRange r = s.countsRange r := by
  rw [Segment.countsRange,Segment.countsRange,h.concurrentChildren,h.endedBefore]

theorem exclusiveTime (h : Twin same s s') : s'.exclusiveTime = s.exclusiveTime :=
  exclusiveTime_congr h.accounts.times h.accounts.childrenTime h.accounts.childrenRanges

/-- Two segments stay twins when no more than what is shown of them changes. -/
theorem alike (h : Twin same s s') (hu : s.Alike u) (hu' : s'.Alike u')
    (hrecord : same → u'.recordOnFinish = u.recordOnFinish) : Twin same u u' where
  accounts := ((SegmentTree.SameAccounts.of_alike hu).symm.trans h.accounts).trans (.of_alike hu')
  concurrentChildren := hu'.concurrentChildren.trans (h.concurrentChildren.trans hu.concurrentChildren.symm)
  recordOnFinish := hrecord

theorem childStart (h : Twin same s s') : Twin same s.childStart s'.childStart := by
  obtain ⟨⟨htimes,htime,hranges,hactive,hrecorded⟩,hconcurrent,hrecord⟩ := h
  exact ⟨⟨htimes,htime,hranges,congrArg (· + 1) hactive,hrecorded⟩,
    by simp [Segment.childStart,hconcurrent,hactive],hrecord⟩

theorem stopAt (h : Twin same s s') (now : Time) : Twin same (s.stopAt now) (s'.stopAt now) := by
  obtain ⟨⟨htimes,htime,hranges,hactive,hrecorded⟩,hconcurrent,hrecord⟩ := h
  obtain ⟨hparent,hstart,-⟩ := times_eq.mp htimes
  exact ⟨⟨times_eq.mpr ⟨hparent,hstart,by simp [Segment.stopAt,hstart]⟩,htime,hranges,hactive,hrecorded⟩,
    hconcurrent,hrecord⟩

theorem markRangeRecorded (h : Twin same s s') :
    Twin same s.markRangeRecorded s'.markRangeRecorded :=
  ⟨⟨h.accounts.times,h.accounts.childrenTime,h.accounts.childrenRanges,h.accounts.activeChildren,rfl⟩,
    h.concurrentChildren,h.recordOnFinish⟩

theorem addChildRange (h : Twin same s s') (r : TimeRange) :
    Twin same (s.addChildRange r) (s'.addChildRange r) :=
  ⟨⟨h.accounts.times,h.accounts.childrenTime,congrArg (·.insert r) h.accounts.childrenRanges,
    h.accounts.activeChildren,h.accounts.rangeRecorded⟩,h.concurrentChildren,h.recordOnFinish⟩

theorem recountChild (h : Twin same s s') (r : TimeRange) :
    Twin same (s.recountChild r) (s'.recountChild r) :=
  ⟨⟨h.accounts.times,congrArg (· - (r.stop-r.start)) h.accounts.childrenTime,
    congrArg (·.insert r) h.accounts.childrenRanges,h.accounts.activeChildren,h.accounts.rangeRecorded⟩,
    h.concurrentChildren,h.recordOnFinish⟩

theorem childComplete (h : Twin same s s') (r : TimeRange) :
    Twin same (s.childComplete r) (s'.childComplete r) := by
  rw [childComplete_eq,childComplete_eq,h.countsRange]
  obtain ⟨⟨htimes,htime,hranges,hactive,hrecorded⟩,hconcurrent,hrecord⟩ := h
  exact ⟨⟨htimes,by simp only [htime],by simp only [hranges],by simp only [hactive],hrecorded⟩,
    hconcurrent,hrecord⟩

end Segment.Twin

namespace SegmentTree

variable {same : ℕ → Prop} {t t' u u' : SegmentTree} {now : Time} {b b' : Backtrace} {i p : ℕ}
  {s s' : Segment}

/-- The same segments in the same places, but for what is shown of them and for their results. -/
structure Twin (same : ℕ → Prop) (t t' : SegmentTree) : Prop where
  current : t'.current = t.current
  isAsync : t'.isAsync = t.isAsync
  segments : ∀ i, Option.Rel (Segment.Twin (same i)) (t.get? i) (t'.get? i)

namespace Twin

theorem get?_eq_none (h : Twin same t t') (hs : t.get? i = none) : t'.get? i = none := by
  have hrel := h.segments i
  rw [hs] at hrel
  cases hs' : t'.get? i with
  | none => rfl
  | some s' => simp [hs'] at hrel

theorem get? (h : Twin same t t') (hs : t.get? i = some s) :
    ∃ s', t'.get? i = some s' ∧ Segment.Twin (same i) s s' := by
  have hrel := h.segments i
  rw [hs] at hrel
  cases hs' : t'.get? i with
  | none => simp [hs'] at hrel
  | some s' =>
    rw [hs'] at hrel
    exact ⟨s',rfl,by simpa using hrel⟩

theorem size (h : Twin same t t') : t'.size = t.size := by
  refine le_antisymm (not_lt.mp fun hlt => ?_) (not_lt.mp fun hlt => ?_)
  · obtain ⟨s',hs'⟩ := exists_get? hlt
    simp [h.get?_eq_none (SegmentTree.get?_eq_none le_rfl)] at hs'
  · obtain ⟨s,hs⟩ := exists_get? hlt
    obtain ⟨s',hs',-⟩ := h.get? hs
    exact absurd (lt_size_of_get? hs') (lt_irrefl _)

theorem sameTimes (h : Twin same t t') : SameTimes t t' := by
  refine ⟨h.size,fun i => ?_⟩
  cases hs : t.get? i with
  | none => rw [h.get?_eq_none hs]
  | some s =>
    obtain ⟨s',hs',htwin⟩ := h.get? hs
    rw [hs',Option.map_some,Option.map_some,htwin.accounts.times]

theorem stop (h : Twin same t t') (i : ℕ) : (t'.get? i).bind (·.stop) = (t.get? i).bind (·.stop) := by
  cases hs : t.get? i with
  | none => rw [h.get?_eq_none hs]
  | some s =>
    obtain ⟨s',hs',htwin⟩ := h.get? hs
    rw [hs',Option.bind_some,Option.bind_some,Segment.stop_of_times htwin.accounts.times]

/-- To compare two trees it is enough to find the twin of each segment of the one. -/
theorem of_get? (hcurrent : t'.current = t.current) (hasync : t'.isAsync = t.isAsync)
    (hsize : t'.size = t.size)
    (h : ∀ i s, t.get? i = some s → ∃ s', t'.get? i = some s' ∧ Segment.Twin (same i) s s') :
    Twin same t t' := by
  refine ⟨hcurrent,hasync,fun i => ?_⟩
  cases hs : t.get? i with
  | none =>
    rw [SegmentTree.get?_eq_none (hsize ▸ Array.getElem?_eq_none_iff.mp hs)]
    exact Option.Rel.none
  | some s =>
    obtain ⟨s',hs',htwin⟩ := h i s hs
    rw [hs']
    exact Option.Rel.some htwin

theorem modify (h : Twin same t t') {f f' : Segment → Segment}
    (hf : ∀ s s', Segment.Twin (same i) s s' → Segment.Twin (same i) (f s) (f' s')) :
    Twin same (t.modify i f) (t'.modify i f') := by
  refine of_get? h.current h.isAsync (by simp [h.size]) fun j u hu => ?_
  obtain ⟨v,hv,⟨rfl,rfl⟩ | ⟨hji,rfl⟩⟩ := exists_of_modify hu
  · obtain ⟨v',hv',htwin⟩ := h.get? hv
    exact ⟨f' v',by rw [get?_modify,if_pos rfl,hv',Option.map_some],hf v v' htwin⟩
  · obtain ⟨v',hv',htwin⟩ := h.get? hv
    exact ⟨v',by rw [get?_modify,if_neg hji.symm,hv'],htwin⟩

theorem recordDescendant (h : Twin same t t') (r : TimeRange) (c a : ℕ) :
    Twin same (t.recordDescendant r c a) (t'.recordDescendant r c a) := by
  have hrange : Twin same (t.modify a (Segment.addChildRange r)) (t'.modify a (Segment.addChildRange r)) :=
    h.modify fun s s' htwin => htwin.addChildRange r
  simp only [SegmentTree.recordDescendant]
  cases hs : (t.modify a (Segment.addChildRange r)).get? c with
  | none => simpa only [hrange.get?_eq_none hs] using hrange
  | some s =>
    obtain ⟨s',hs',htwin⟩ := hrange.get? hs
    simp only [hs',htwin.accounts.rangeRecorded,htwin.timeRange]
    split
    · exact hrange
    · exact (hrange.modify fun s s' htwin => htwin.recountChild _).modify
        fun s s' htwin => htwin.markRangeRecorded

theorem descendantComplete (h : Twin same t t') (r : TimeRange) (c a : ℕ) :
    Twin same (t.descendantComplete r c a) (t'.descendantComplete r c a) := by
  induction a using Nat.strong_induction_on generalizing t t' c with
  | _ a ih =>
    have hrecord := h.recordDescendant r c a
    rw [SegmentTree.descendantComplete,SegmentTree.descendantComplete]
    cases hs : (t.recordDescendant r c a).get? a with
    | none => simpa only [hs,hrecord.get?_eq_none hs] using hrecord
    | some s =>
      obtain ⟨s',hs',htwin⟩ := hrecord.get? hs
      simp only [hs',htwin.parent,htwin.endedBefore]
      split
      · split
        · rename_i hlt
          exact ih _ hlt.1 hrecord a
        · exact hrecord
      · exact hrecord

theorem countChild (h : Twin same t t') (p c : ℕ) (r : TimeRange) :
    Twin same (t.countChild p c r) (t'.countChild p c r) := by
  have hchild : Twin same (t.modify p (Segment.childComplete r)) (t'.modify p (Segment.childComplete r)) :=
    h.modify fun s s' htwin => htwin.childComplete r
  cases hs : t.get? p with
  | none => simpa only [SegmentTree.countChild,hs,h.get?_eq_none hs] using h
  | some s =>
    obtain ⟨s',hs',htwin⟩ := h.get? hs
    simp only [SegmentTree.countChild,hs,hs',htwin.countsRange]
    split
    · exact hchild.modify fun s s' htwin => htwin.markRangeRecorded
    · exact hchild

theorem markAsync (h : Twin same t t') :
    Twin same { t with isAsync := true } { t' with isAsync := true } :=
  ⟨h.current,rfl,h.segments⟩

theorem childComplete (h : Twin same t t') (p c : ℕ) (r : TimeRange) :
    Twin same (t.childComplete p c r) (t'.childComplete p c r) := by
  have hcount := h.countChild p c r
  cases hs : t.get? p with
  | none => simpa only [SegmentTree.childComplete,hs,h.get?_eq_none hs] using h
  | some s =>
    obtain ⟨s',hs',htwin⟩ := h.get? hs
    rw [childComplete_of_get? hs,childComplete_of_get? hs',htwin.isFinished,htwin.parent]
    split
    · split
      · exact hcount.markAsync.descendantComplete r p _
      · exact hcount.markAsync
    · exact hcount

theorem countUp (h : Twin same t t') (hs : Segment.Twin (same i) s s') :
    Twin same (t.countUp i s) (t'.countUp i s') := by
  have hput : Twin same (t.modify i fun _ => s) (t'.modify i fun _ => s') := h.modify fun _ _ _ => hs
  simp only [SegmentTree.countUp,hs.parent,hs.timeRange]
  split
  · exact hput.childComplete _ i _
  · exact hput

theorem refl (same : ℕ → Prop) (t : SegmentTree) : Twin same t t :=
  of_get? rfl rfl rfl fun i s hs => ⟨s,hs,Segment.Twin.refl (same i) s⟩

theorem trans {t'' : SegmentTree} (h : Twin same t t') (h' : Twin same t' t'') : Twin same t t'' := by
  refine of_get? (h'.current.trans h.current) (h'.isAsync.trans h.isAsync) (h'.size.trans h.size)
    fun i s hs => ?_
  obtain ⟨s',hs',htwin⟩ := h.get? hs
  obtain ⟨s'',hs'',htwin'⟩ := h'.get? hs'
  exact ⟨s'',hs'',htwin.trans htwin'⟩

theorem symm (h : Twin same t t') : Twin same t' t := by
  refine of_get? h.current.symm h.isAsync.symm h.size.symm fun i s' hs' => ?_
  obtain ⟨s,hs⟩ := exists_get? (h.size ▸ lt_size_of_get? hs')
  obtain ⟨u,hu,htwin⟩ := h.get? hs
  exact ⟨s,hs,get?_inj hs' hu ▸ htwin.symm⟩

end Twin

/-- To give a segment its result changes neither times nor accounts. -/
theorem twin_finalize (same : ℕ → Prop) (t : SegmentTree) (i : ℕ) : Twin same t (t.finalize i) := by
  rcases t.finalize_cases i with he | ⟨s,hs,hn⟩
  · rw [he]
    exact Twin.refl same t
  · obtain ⟨ps,he⟩ := finalize_eq hs hn
    rw [he]
    refine Twin.of_get? rfl rfl (by simp [size,modify]) fun j u hu => ?_
    have hget := t.get?_modify i (fun _ => { s.recordExclusive with parameters := ps }) j
    rw [hu] at hget
    by_cases hji : i = j
    · subst hji
      cases get?_inj hs hu
      exact ⟨_,hget.trans (if_pos rfl),⟨rfl,rfl,rfl,rfl,rfl⟩,rfl,fun _ => rfl⟩
    · exact ⟨u,hget.trans (if_neg hji),Segment.Twin.refl _ u⟩

namespace Twin

/-- It does not matter in which of the trees a segment gets its result. -/
theorem finalize (h : Twin same t t') (i : ℕ) (l l' : Bool) :
    Twin same (if l then t.finalize i else t) (if l' then t'.finalize i else t') := by
  have hleft : Twin same (if l then t.finalize i else t) t := by
    split
    · exact (twin_finalize same t i).symm
    · exact Twin.refl same t
  have hright : Twin same t' (if l' then t'.finalize i else t') := by
    split
    · exact twin_finalize same t' i
    · exact Twin.refl same t'
  exact (hleft.trans h).trans hright

theorem finish (h : Twin same t t') (b b' : Backtrace) (i : ℕ) (now : Time) :
    Twin same (t.finish b i now) (t'.finish b' i now) := by
  cases hs : t.get? i with
  | none => simpa only [SegmentTree.finish,hs,h.get?_eq_none hs] using h
  | some s =>
    obtain ⟨s',hs',htwin⟩ := h.get? hs
    cases hn : s.isFinished with
    | true => simpa only [SegmentTree.finish,hs,hs',hn,htwin.isFinished,if_true] using h
    | false =>
      obtain ⟨v,u,hv,hout,hu,he⟩ := finish_of_get? (b := b) hs hn now
      obtain ⟨v',u',hv',hout',hu',he'⟩ := finish_of_get? (b := b') hs' (htwin.isFinished.trans hn) now
      have hended : Segment.Twin (same i) v v' := (htwin.stopAt now).alike hv hv' fun h => by
        rw [Segment.recordOnFinish_of_outline hout,Segment.recordOnFinish_of_outline hout',htwin.recordOnFinish h]
      have hup := h.countUp hended
      have hcurrent : Twin same u u' := by
        rw [hu,hu']
        exact ⟨by simp only [hup.current,hended.parent],hup.isAsync,hup.segments⟩
      rw [he,he']
      exact hcurrent.finalize i _ _

theorem start (h : Twin same t t') {q : Segment} (hq : t.get? p = some q)
    (hs : Segment.Twin (same t.size) s s') (becomesCurrent : Bool) :
    Twin same (t.start s p becomesCurrent) (t'.start s' p becomesCurrent) := by
  have hp := lt_size_of_get? hq
  have hp' : p < t'.size := h.size ▸ hp
  have hnew : Segment.Twin (same t.size) { s with parent := some p } { s' with parent := some p } := by
    obtain ⟨⟨htimes,htime,hranges,hactive,hrecorded⟩,hconcurrent,hrecord⟩ := hs
    obtain ⟨-,hstart,hstop⟩ := Segment.times_eq.mp htimes
    exact ⟨⟨Segment.times_eq.mpr ⟨rfl,hstart,hstop⟩,htime,hranges,hactive,hrecorded⟩,hconcurrent,hrecord⟩
  have hget : ∀ i u, (t.start s p becomesCurrent).get? i = some u →
      ∃ u', (t'.start s' p becomesCurrent).get? i = some u' ∧ Segment.Twin (same i) u u' := by
    intro i u hu
    rw [get?_start hp']
    by_cases hi : i = t.size
    · subst hi
      cases get?_inj (get?_start_size hp s becomesCurrent) hu
      exact ⟨_,if_pos h.size.symm,hnew⟩
    · rw [if_neg (h.size ▸ hi)]
      obtain ⟨v,hv,⟨rfl,rfl⟩ | ⟨hip,rfl⟩⟩ := exists_of_start hp hu hi
      · obtain ⟨v',hv',htwin⟩ := h.get? hv
        exact ⟨_,by rw [if_pos rfl,hv',Option.map_some],htwin.childStart⟩
      · obtain ⟨v',hv',htwin⟩ := h.get? hv
        exact ⟨v',by rw [if_neg hip,hv'],htwin⟩
  refine of_get? ?_ ?_ (by rw [size_start,size_start,h.size]) hget
  · rw [current_start,current_start,h.current,h.size]
  · obtain ⟨u,hu⟩ := exists_get? (t := t.start s p becomesCurrent) (i := p) (by rw [size_start]; omega)
    obtain ⟨u',hu',htwin⟩ := hget p u hu
    rw [isAsync_start,isAsync_start,hu,hu',h.isAsync,Option.any_some,Option.any_some,
      htwin.concurrentChildren]

theorem unfinished (h : Twin same t t') : t'.unfinished = t.unfinished := by
  simp only [SegmentTree.unfinished,h.size,h.sameTimes.any_not_isFinished]

theorem foldl_finish (h : Twin same t t') (b b' : Backtrace) (now : Time) (l : List ℕ) :
    Twin same (l.foldl (fun t i => t.finish b i now) t) (l.foldl (fun t i => t.finish b' i now) t') := by
  induction l generalizing t t' with
  | nil => exact h
  | cons i l ih => exact ih (h.finish b b' i now)

theorem foldl_finalize (h : Twin same t t') (l : List ℕ) :
    Twin same (l.foldl SegmentTree.finalize t) (l.foldl SegmentTree.finalize t') := by
  induction l generalizing t t' with
  | nil => exact h
  | cons i l ih => exact ih (h.finalize i true true)

theorem close (h : Twin same t t') (b b' : Backtrace) (now : Time) :
    Twin same (t.close b now) (t'.close b' now) := by
  have hall : Twin same (t.finishAll b now) (t'.finishAll b' now) := by
    rw [finishAll,finishAll,h.unfinished]
    exact (h.foldl_finish b b' now t.unfinished).finish b b' 0 now
  rw [close_eq,close_eq,hall.size]
  exact hall.foldl_finalize _

/-- Results that stand in both trees are equal. -/
theorem exclusive_eq (h : Twin same t t') (hstand : t.Standing p) (hstand' : t'.Standing p)
    (hs : t.get? p = some s) (hs' : t'.get? p = some s') (hz : s.finalized = true)
    (hz' : s'.finalized = true) : s'.exclusive = s.exclusive := by
  obtain ⟨u,hu,htwin⟩ := h.get? hs
  cases get?_inj hs' hu
  rw [hstand s hs hz,hstand' s' hs' hz',htwin.exclusiveTime]

end Twin

end SegmentTree

end TraceEngine
