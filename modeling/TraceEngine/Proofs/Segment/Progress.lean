import TraceEngine.Proofs.Segment.Change

/-! What no change takes back: places in the tree, starts, ends, ranges once recorded and results. A
quiet change keeps all times and results. -/
namespace TraceEngine

namespace Segment

/-- Where and when a segment runs. -/
def times (s : Segment) : Option ℕ × Time × Option Time := (s.parent,s.start,s.stop)

theorem times_eq {s s' : Segment} :
    s'.times = s.times ↔ s'.parent = s.parent ∧ s'.start = s.start ∧ s'.stop = s.stop := by
  simp [times]

theorem Alike.times_eq {s s' : Segment} (h : s.Alike s') : s'.times = s.times := by
  rw [times,times,h.parent,h.start,h.stop]

theorem parent_of_times {s s' : Segment} (h : s'.times = s.times) : s'.parent = s.parent :=
  (times_eq.mp h).1

theorem start_of_times {s s' : Segment} (h : s'.times = s.times) : s'.start = s.start :=
  (times_eq.mp h).2.1

theorem stop_of_times {s s' : Segment} (h : s'.times = s.times) : s'.stop = s.stop :=
  (times_eq.mp h).2.2

theorem timeRange_of_times {s s' : Segment} (h : s'.times = s.times) : s'.timeRange = s.timeRange := by
  rw [timeRange,timeRange,start_of_times h,stop_of_times h]

theorem isFinished_of_times {s s' : Segment} (h : s'.times = s.times) :
    s'.isFinished = s.isFinished := by
  rw [isFinished,isFinished,stop_of_times h]

theorem exists_stop {s : Segment} (h : s.isFinished = true) : ∃ e, s.stop = some e :=
  Option.isSome_iff_exists.mp h

theorem isFinished_of_stop {s : Segment} {e : Time} (h : s.stop = some e) : s.isFinished = true := by
  simp [isFinished,h]

theorem isFinished_of_stopAt {s s' : Segment} {now : Time} (h : (s.stopAt now).Alike s') :
    s'.isFinished = true :=
  isFinished_of_stop h.stop

theorem isFinished_of_endedBefore {s : Segment} {e : Time} (h : s.endedBefore e = true) :
    s.isFinished = true := by
  cases hs : s.stop with
  | none => simp [endedBefore,hs] at h
  | some x => exact isFinished_of_stop hs

/-- A later state of a segment. -/
structure Later (s s' : Segment) : Prop where
  parent : s'.parent = s.parent
  start : s'.start = s.start
  stop : ∀ {e}, s.stop = some e → s'.stop = some e
  recorded : s.rangeRecorded = true → s'.rangeRecorded = true
  finalized : s.finalized = true → s'.finalized = true ∧ s'.exclusive = s.exclusive

theorem Later.refl (s : Segment) : s.Later s := ⟨rfl,rfl,id,id,fun h => ⟨h,rfl⟩⟩

theorem Later.trans {s s' s'' : Segment} (h : s.Later s') (h' : s'.Later s'') : s.Later s'' where
  parent := h'.parent.trans h.parent
  start := h'.start.trans h.start
  stop he := h'.stop (h.stop he)
  recorded hr := h'.recorded (h.recorded hr)
  finalized hf := ⟨(h'.finalized (h.finalized hf).1).1,
    (h'.finalized (h.finalized hf).1).2.trans (h.finalized hf).2⟩

theorem Alike.later {s s' : Segment} (h : s.Alike s') : s.Later s' where
  parent := h.parent
  start := h.start
  stop he := h.stop.trans he
  recorded hr := h.rangeRecorded.trans hr
  finalized hf := ⟨h.finalized.trans hf,h.exclusive⟩

theorem Later.isFinished {s s' : Segment} (h : s.Later s') (hf : s.isFinished = true) :
    s'.isFinished = true := by
  obtain ⟨e,he⟩ := exists_stop hf
  exact isFinished_of_stop (h.stop he)

/-- A segment that has ended keeps its range. -/
theorem Later.times_eq {s s' : Segment} (h : s.Later s') (hf : s.isFinished = true) :
    s'.times = s.times := by
  obtain ⟨e,he⟩ := exists_stop hf
  rw [times,times,h.parent,h.start,h.stop he,he]

/-- What a quiet change keeps of a segment. -/
structure Kept (s s' : Segment) : Prop where
  times : s'.times = s.times
  recorded : s.rangeRecorded = true → s'.rangeRecorded = true
  finalized : s'.finalized = s.finalized
  exclusive : s'.exclusive = s.exclusive
  activeChildren : s'.activeChildren = s.activeChildren
  concurrentChildren : s'.concurrentChildren = s.concurrentChildren

theorem Kept.refl (s : Segment) : s.Kept s := ⟨rfl,id,rfl,rfl,rfl,rfl⟩

theorem Kept.later {s s' : Segment} (h : s.Kept s') : s.Later s' where
  parent := parent_of_times h.times
  start := start_of_times h.times
  stop he := (stop_of_times h.times).trans he
  recorded := h.recorded
  finalized hf := ⟨h.finalized.trans hf,h.exclusive⟩

theorem Alike.kept {s s' : Segment} (h : s.Alike s') : s.Kept s' :=
  ⟨h.times_eq,fun hr => h.rangeRecorded.trans hr,h.finalized,h.exclusive,h.activeChildren,
    h.concurrentChildren⟩

theorem kept_absorb (r : TimeRange) (s child : Segment) : s.Kept (s.absorb r child) := by
  rw [absorb_eq]
  exact ⟨rfl,id,rfl,rfl,rfl,rfl⟩

theorem later_childStart (s : Segment) : s.Later s.childStart := ⟨rfl,rfl,id,id,fun h => ⟨h,rfl⟩⟩

theorem later_childComplete (r : TimeRange) (s : Segment) : s.Later (s.childComplete r) := by
  rw [childComplete_eq]
  exact ⟨rfl,rfl,id,id,fun h => ⟨h,rfl⟩⟩

theorem later_recordExclusive {s : Segment} (hn : s.finalized = false) : s.Later s.recordExclusive :=
  ⟨rfl,rfl,id,id,fun h => by simp [hn] at h⟩

theorem later_stopAt {s : Segment} (hn : s.isFinished = false) (t : Time) : s.Later (s.stopAt t) where
  parent := rfl
  start := rfl
  stop he := by simp [isFinished,he] at hn
  recorded := id
  finalized h := ⟨h,rfl⟩

end Segment

namespace SegmentTree

variable {t t' t'' : SegmentTree} {now : Time} {orderly : Prop}

/-- The same segments run in the same places at the same times. -/
structure SameTimes (t t' : SegmentTree) : Prop where
  size : t'.size = t.size
  times : ∀ i, (t'.get? i).map Segment.times = (t.get? i).map Segment.times

namespace SameTimes

theorem refl (t : SegmentTree) : SameTimes t t := ⟨rfl,fun _ => rfl⟩

theorem symm (h : SameTimes t t') : SameTimes t' t := ⟨h.size.symm,fun i => (h.times i).symm⟩

theorem trans (h : SameTimes t t') (h' : SameTimes t' t'') : SameTimes t t'' :=
  ⟨h'.size.trans h.size,fun i => (h'.times i).trans (h.times i)⟩

theorem get? (h : SameTimes t t') {i : ℕ} {s : Segment} (hs : t.get? i = some s) :
    ∃ s', t'.get? i = some s' ∧ s'.times = s.times := by
  have := h.times i
  rwa [hs,Option.map_some,Option.map_eq_some_iff] at this

theorem any (h : SameTimes t t') {f : Segment → Bool}
    (hf : ∀ s s' : Segment, s'.times = s.times → f s' = f s) (i : ℕ) :
    (t'.get? i).any f = (t.get? i).any f := by
  have htimes := h.times i
  cases hs : t.get? i with
  | none =>
    rw [hs,Option.map_none,Option.map_eq_none_iff] at htimes
    rw [htimes]
  | some s =>
    obtain ⟨s',hs',he⟩ := h.get? hs
    rw [hs',Option.any_some,Option.any_some,hf s s' he]

theorem any_isFinished (h : SameTimes t t') (i : ℕ) :
    (t'.get? i).any (·.isFinished) = (t.get? i).any (·.isFinished) :=
  h.any (fun _ _ => Segment.isFinished_of_times) i

theorem any_not_isFinished (h : SameTimes t t') (i : ℕ) :
    (t'.get? i).any (!·.isFinished) = (t.get? i).any (!·.isFinished) :=
  h.any (fun _ _ he => congrArg not (Segment.isFinished_of_times he)) i

theorem ancestors (h : SameTimes t t') (i : ℕ) : t'.ancestors i = t.ancestors i := by
  refine ancestors_congr fun j _ => ?_
  cases hs : t.get? j with
  | none =>
    have := h.times j
    rw [hs,Option.map_none,Option.map_eq_none_iff] at this
    simp [parent?,hs,this]
  | some s =>
    obtain ⟨s',hs',ht⟩ := h.get? hs
    simp [parent?,hs,hs',Segment.parent_of_times ht]

/-- Segments that run at the same times are busy in the same instants. -/
theorem busy_subset (h : SameTimes t t') {l l' : List Segment} (hl : ∀ s ∈ l, ∃ i, t.get? i = some s ∧
    ∀ s', t'.get? i = some s' → s'.times = s.times → s' ∈ l') : Segment.busy l ⊆ Segment.busy l' := by
  intro x hx
  obtain ⟨s,hs,hx⟩ := Segment.mem_busy.mp hx
  obtain ⟨i,hi,hmem⟩ := hl s hs
  obtain ⟨s',hs',htimes⟩ := h.get? hi
  exact Segment.mem_busy.mpr ⟨s',hmem s' hs' htimes,by rwa [Segment.timeRange_of_times htimes]⟩

theorem busy_children (h : SameTimes t t') (p : ℕ) :
    Segment.busy (t'.children p) = Segment.busy (t.children p) := by
  have hsub : ∀ {t t' : SegmentTree}, SameTimes t t' →
      Segment.busy (t.children p) ⊆ Segment.busy (t'.children p) := by
    refine fun h => h.busy_subset fun s hs => ?_
    obtain ⟨i,hi,hp⟩ := mem_children.mp hs
    exact ⟨i,hi,fun s' hs' htimes =>
      mem_children.mpr ⟨i,hs',(Segment.parent_of_times htimes).trans hp⟩⟩
  exact (hsub h.symm).antisymm (hsub h)

theorem busy_descendants (h : SameTimes t t') (p : ℕ) :
    Segment.busy (t'.descendants p) = Segment.busy (t.descendants p) := by
  have hsub : ∀ {t t' : SegmentTree}, SameTimes t t' →
      Segment.busy (t.descendants p) ⊆ Segment.busy (t'.descendants p) := by
    refine fun h => h.busy_subset fun s hs => ?_
    obtain ⟨i,hi,hp⟩ := mem_descendants.mp hs
    exact ⟨i,hi,fun s' hs' _ => mem_descendants.mpr ⟨i,hs',(h.ancestors i).symm ▸ hp⟩⟩
  exact (hsub h.symm).antisymm (hsub h)

theorem rooted (h : SameTimes t t') (ht : t.Rooted) : t'.Rooted where
  nonempty := h.size ▸ ht.nonempty
  parent_lt hs hp := by
    obtain ⟨s₀,hs₀,he⟩ := h.symm.get? hs
    exact ht.parent_lt hs₀ ((Segment.parent_of_times he).trans hp)
  parent_none hs := by
    obtain ⟨s₀,hs₀,he⟩ := h.symm.get? hs
    rw [← Segment.parent_of_times he]
    exact ht.parent_none hs₀

end SameTimes

/-- All segments of the one tree are in the other, in a later state. -/
def Later (t t' : SegmentTree) : Prop :=
  ∀ {i s}, t.get? i = some s → ∃ s', t'.get? i = some s' ∧ s.Later s'

theorem Later.refl (t : SegmentTree) : t.Later t := fun {_ s} hs => ⟨s,hs,Segment.Later.refl s⟩

theorem Later.trans (h : t.Later t') (h' : t'.Later t'') : t.Later t'' := by
  intro i s hs
  obtain ⟨s',hs',hl⟩ := h hs
  obtain ⟨s'',hs'',hl'⟩ := h' hs'
  exact ⟨s'',hs'',hl.trans hl'⟩

/-- What stands in a place of a later tree that is no larger stood there before. -/
theorem exists_of_later (h : t.Later t') (hsize : t'.size = t.size) {i : ℕ} {u : Segment}
    (hu : t'.get? i = some u) : ∃ s, t.get? i = some s ∧ s.Later u := by
  obtain ⟨s,hs⟩ := exists_get? (hsize ▸ lt_size_of_get? hu)
  obtain ⟨v,hv,hl⟩ := h hs
  exact ⟨s,hs,get?_inj hv hu ▸ hl⟩

theorem Later.ancestors (h : t.Later t') {i : ℕ} (hi : i < t.size) : t'.ancestors i = t.ancestors i := by
  refine ancestors_congr fun j hj => ?_
  obtain ⟨s,hs⟩ := exists_get? (hj.trans_lt hi)
  obtain ⟨s',hs',hl⟩ := h hs
  simp [parent?,hs,hs',hl.parent]

theorem Later.size_le (h : t.Later t') : t.size ≤ t'.size := by
  by_contra hlt
  obtain ⟨s,hs⟩ := exists_get? (not_le.mp hlt)
  obtain ⟨s',hs',-⟩ := h hs
  exact absurd (lt_size_of_get? hs') (lt_irrefl _)

theorem Quiet.size (h : Quiet t t') : t'.size = t.size := by
  cases h with
  | relabel hs _ => simp [SegmentTree.size,hs]
  | retouch => simp
  | absorb => simp

theorem Quiet.get? (ht : t.Rooted) (h : Quiet t t') {i : ℕ} {s : Segment} (hs : t.get? i = some s) :
    ∃ s', t'.get? i = some s' ∧ s.Kept s' := by
  cases h with
  | relabel he _ => exact ⟨s,by rw [← hs]; simp [SegmentTree.get?,he],Segment.Kept.refl s⟩
  | @retouch k f hf =>
    rw [get?_modify,hs]
    by_cases hk : k = i
    · subst hk
      exact ⟨f s,by simp,(hf s hs).kept⟩
    · exact ⟨s,by simp [hk],Segment.Kept.refl s⟩
  | @absorb d c a sd sc sa hd _ hc _ ha hp _ =>
    rw [get?_recordDescendant hc ha (ht.parent_lt hc hp).ne,hs]
    by_cases hic : i = c
    · subst hic
      obtain rfl := get?_inj hc hs
      exact ⟨sc.markRangeRecorded,by simp,⟨rfl,fun _ => rfl,rfl,rfl,rfl,rfl⟩⟩
    · by_cases hia : i = a
      · subst hia
        obtain rfl := get?_inj ha hs
        exact ⟨_,by rw [if_neg hic,if_pos rfl],Segment.kept_absorb _ sa sc⟩
      · exact ⟨s,by simp [hic,hia],Segment.Kept.refl s⟩

theorem Quiet.sameTimes (ht : t.Rooted) (h : Quiet t t') : SameTimes t t' := by
  refine ⟨h.size,fun i => ?_⟩
  cases hs : t.get? i with
  | none =>
    have hi : t.size ≤ i := Array.getElem?_eq_none_iff.mp hs
    rw [get?_eq_none (h.size ▸ hi)]
  | some s =>
    obtain ⟨s',hs',hk⟩ := h.get? ht hs
    simp [hs',hk.times]

theorem Quiet.exists_get? (ht : t.Rooted) (h : Quiet t t') {i : ℕ} {s' : Segment}
    (hs' : t'.get? i = some s') :
    ∃ s, t.get? i = some s ∧ s.Kept s' := by
  obtain ⟨s,hs⟩ := SegmentTree.exists_get? (h.size ▸ lt_size_of_get? hs')
  obtain ⟨u,hu,hk⟩ := h.get? ht hs
  exact ⟨s,hs,get?_inj hs' hu ▸ hk⟩

theorem sameTimes_finalize {i : ℕ} {s : Segment} (hs : t.get? i = some s) (hn : s.finalized = false) :
    SameTimes t (t.finalize i) := by
  obtain ⟨hsize,-,s',hs',hget⟩ := get?_finalize hs hn
  refine ⟨hsize,fun j => ?_⟩
  rw [hget]
  by_cases hj : j = i
  · subst hj
    rw [if_pos rfl,hs]
    exact congrArg some hs'.times_eq
  · rw [if_neg hj]

/-- A change leaves in each place a later state, which has the same end unless it ends at the time of the
change. -/
theorem Change.get? (ht : t.Rooted) (h : Change now orderly t t') {i : ℕ} {s : Segment}
    (hs : t.get? i = some s) :
    ∃ s', t'.get? i = some s' ∧ s.Later s' ∧
      (s'.stop = s.stop ∨ s.stop = none ∧ s'.stop = some (max now s.start)) := by
  cases h with
  | quiet h =>
    obtain ⟨s',hs',hk⟩ := h.get? ht hs
    exact ⟨s',hs',hk.later,Or.inl (Segment.stop_of_times hk.times)⟩
  | @start p _ new b hq _ _ =>
    have hne : i ≠ t.size := (lt_size_of_get? hs).ne
    rw [get?_start (lt_size_of_get? hq),if_neg hne,hs]
    by_cases hp : i = p
    · exact ⟨s.childStart,by simp [hp],Segment.later_childStart s,Or.inl rfl⟩
    · exact ⟨s,by simp [hp],Segment.Later.refl s,Or.inl rfl⟩
  | @stop k sk s' hk hn hs' _ =>
    have hstop : s'.stop = some (max now sk.start) := hs'.stop
    have hnone : sk.stop = none := by simpa [Segment.isFinished] using hn
    have hlater : sk.Later s' := (Segment.later_stopAt hn now).trans hs'.later
    cases hp : s'.parent with
    | none =>
      rw [get?_endSegment_root hk hp,hs]
      by_cases hik : i = k
      · subst hik
        cases get?_inj hk hs
        exact ⟨s',by simp,hlater,Or.inr ⟨hnone,hstop⟩⟩
      · exact ⟨s,by simp [hik],Segment.Later.refl s,Or.inl rfl⟩
    | some p =>
      have hpk : sk.parent = some p := hs'.parent ▸ hp
      obtain ⟨q,hq⟩ := ht.exists_parent hk hpk
      rw [get?_endSegment hk hp hq (ht.parent_lt hk hpk).ne,hs]
      by_cases hik : i = k
      · subst hik
        cases get?_inj hk hs
        refine ⟨_,if_pos rfl,?_,Or.inr ⟨hnone,hstop⟩⟩
        exact ⟨hlater.parent,hlater.start,hlater.stop,fun hr => by simp [hlater.recorded hr],
          hlater.finalized⟩
      · by_cases hip : i = p
        · subst hip
          obtain rfl := get?_inj hq hs
          refine ⟨_,by rw [if_neg hik,if_pos rfl],Segment.later_childComplete _ q,Or.inl ?_⟩
          rw [Segment.childComplete_eq]
        · exact ⟨s,by simp [hik,hip],Segment.Later.refl s,Or.inl rfl⟩
  | @finalize k sk hk _ hn =>
    obtain ⟨-,-,s',hs',hget⟩ := get?_finalize hk hn
    rw [hget,hs]
    by_cases hik : i = k
    · subst hik
      cases get?_inj hk hs
      exact ⟨s',by simp,(Segment.later_recordExclusive hn).trans hs'.later,Or.inl hs'.stop⟩
    · exact ⟨s,by simp [hik],Segment.Later.refl s,Or.inl rfl⟩

theorem Change.later (ht : t.Rooted) (h : Change now orderly t t') : t.Later t' := by
  intro i s hs
  obtain ⟨s',hs',hl,-⟩ := h.get? ht hs
  exact ⟨s',hs',hl⟩

theorem Change.rooted (ht : t.Rooted) (h : Change now orderly t t') : t'.Rooted := by
  cases h with
  | quiet h => exact (h.sameTimes ht).rooted ht
  | finalize hs _ hn => exact (sameTimes_finalize hs hn).rooted ht
  | @start p q s b hq hs _ =>
    have hp := lt_size_of_get? hq
    have hpos := ht.nonempty
    refine ⟨by rw [size_start]; omega,fun {i r u} hu hr => ?_,fun {i u} hu => ?_⟩
    all_goals
      rw [get?_start hp] at hu
      by_cases hi : i = t.size
    · rw [if_pos hi] at hu
      cases Option.some.inj hu
      cases Option.some.inj hr
      exact hi ▸ hp
    · rw [if_neg hi] at hu
      split at hu
      · obtain ⟨v,hv,rfl⟩ := Option.map_eq_some_iff.mp hu
        exact ht.parent_lt hv hr
      · exact ht.parent_lt hu hr
    · rw [if_pos hi] at hu
      cases Option.some.inj hu
      simp only [reduceCtorEq,false_iff]
      omega
    · rw [if_neg hi] at hu
      split at hu
      · obtain ⟨v,hv,rfl⟩ := Option.map_eq_some_iff.mp hu
        exact ht.parent_none (s := v) hv
      · exact ht.parent_none hu
  | @stop k sk s' hk hn hs' ho =>
    have hget : ∀ {i u}, (t.endSegment k s').get? i = some u →
        ∃ v, t.get? i = some v ∧ u.parent = v.parent := by
      intro i u hu
      have hi : i < t.size := by simpa using lt_size_of_get? hu
      obtain ⟨v,hv⟩ := exists_get? hi
      obtain ⟨u',hu',hl,-⟩ := (Change.stop hk hn hs' ho).get? ht hv
      exact ⟨v,hv,get?_inj hu hu' ▸ hl.parent⟩
    refine ⟨by simpa using ht.nonempty,fun {i r u} hu hr => ?_,fun {i u} hu => ?_⟩
    · obtain ⟨v,hv,he⟩ := hget hu
      exact ht.parent_lt hv (he ▸ hr)
    · obtain ⟨v,hv,he⟩ := hget hu
      exact he ▸ ht.parent_none hv

section Single

variable {i p : ℕ} {q s s' : Segment}

theorem Quiet.later (ht : t.Rooted) (h : Quiet t t') : t.Later t' := by
  intro i s hs
  obtain ⟨s',hs',hk⟩ := h.get? ht hs
  exact ⟨s',hs',hk.later⟩

theorem Rooted.start (ht : t.Rooted) (b : Bool) (hq : t.get? p = some q)
    (hs : ({ guid := s.guid, name := s.name, start := now } : Segment).Alike s) :
    (t.start s p b).Rooted :=
  (Change.start b hq hs False.elim).rooted ht

theorem later_start (ht : t.Rooted) (b : Bool) (hq : t.get? p = some q)
    (hs : ({ guid := s.guid, name := s.name, start := now } : Segment).Alike s) :
    t.Later (t.start s p b) :=
  (Change.start b hq hs False.elim).later ht

theorem Rooted.endSegment (ht : t.Rooted) (hs : t.get? i = some s) (hn : s.isFinished = false)
    (hs' : (s.stopAt now).Alike s') : (t.endSegment i s').Rooted :=
  (Change.stop hs hn hs' False.elim).rooted ht

theorem later_endSegment (ht : t.Rooted) (hs : t.get? i = some s) (hn : s.isFinished = false)
    (hs' : (s.stopAt now).Alike s') : t.Later (t.endSegment i s') :=
  (Change.stop hs hn hs' False.elim).later ht

end Single

end SegmentTree

end TraceEngine
