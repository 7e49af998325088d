import Mathlib.Logic.Relation
import TraceEngine.Proofs.Segment.Lookup

/-! The changes of which every operation on a tree of segments is made: a segment starts, a segment
ends and is counted by its parent, an ancestor takes up the range of a late descendant, a segment is
finalized, or what is shown with a segment changes. Each is read place by place. -/
namespace TraceEngine

/-- Two segments with the same times, accounts and results. They may differ in what is shown with
them. -/
structure Segment.Alike (s s' : Segment) : Prop where
  parent : s'.parent = s.parent
  start : s'.start = s.start
  stop : s'.stop = s.stop
  exclusive : s'.exclusive = s.exclusive
  childrenTime : s'.childrenTime = s.childrenTime
  childrenRanges : s'.childrenRanges = s.childrenRanges
  activeChildren : s'.activeChildren = s.activeChildren
  concurrentChildren : s'.concurrentChildren = s.concurrentChildren
  rangeRecorded : s'.rangeRecorded = s.rangeRecorded
  finalized : s'.finalized = s.finalized

namespace Segment

theorem Alike.refl (s : Segment) : s.Alike s := ⟨rfl,rfl,rfl,rfl,rfl,rfl,rfl,rfl,rfl,rfl⟩

theorem Alike.trans {s s' s'' : Segment} (h : s.Alike s') (h' : s'.Alike s'') : s.Alike s'' :=
  ⟨h'.parent.trans h.parent,h'.start.trans h.start,h'.stop.trans h.stop,h'.exclusive.trans h.exclusive,
    h'.childrenTime.trans h.childrenTime,h'.childrenRanges.trans h.childrenRanges,
    h'.activeChildren.trans h.activeChildren,h'.concurrentChildren.trans h.concurrentChildren,
    h'.rangeRecorded.trans h.rangeRecorded,h'.finalized.trans h.finalized⟩

/-- A segment without its end, its accounts, its result and its parameters: what no end changes. -/
def outline (s : Segment) : Segment :=
  { s with stop := none, exclusive := 0, childrenTime := 0, childrenRanges := [], activeChildren := 0,
           concurrentChildren := false, rangeRecorded := false, finalized := false, parameters := [] }

theorem recordOnFinish_of_outline {s s' : Segment} (h : s'.outline = s.outline) :
    s'.recordOnFinish = s.recordOnFinish :=
  (congrArg Segment.recordOnFinish h :)

theorem alike_parameters (s : Segment) (ps : List (String × Json)) :
    s.Alike { s with parameters := ps } :=
  ⟨rfl,rfl,rfl,rfl,rfl,rfl,rfl,rfl,rfl,rfl⟩

theorem foldl_addParameter (s : Segment) (l : List (String × Json)) :
    ∃ ps, l.foldl (fun s p => s.addParameter p.1 p.2) s = { s with parameters := ps } := by
  induction l generalizing s with
  | nil => exact ⟨s.parameters,rfl⟩
  | cons p l ih => exact ih (s.addParameter p.1 p.2)

theorem addKindParameters_eq (s : Segment) :
    ∃ ps, s.addKindParameters = { s with parameters := ps } := by
  obtain ⟨ps,h⟩ := foldl_addParameter s (s.kind.parameters.map fun p => (p.1,.string p.2))
  exact ⟨ps,by rw [← h,List.foldl_map]; rfl⟩

theorem addBacktrace_eq (b : Backtrace) (s : Segment) :
    ∃ ps, SegmentTree.addBacktrace b s = { s with parameters := ps } := by
  unfold SegmentTree.addBacktrace
  split
  · exact ⟨_,rfl⟩
  · exact ⟨s.parameters,rfl⟩

theorem childComplete_eq (r : TimeRange) (s : Segment) : s.childComplete r =
    { s with activeChildren := s.activeChildren-1,
             childrenTime := if s.countsRange r then s.childrenTime else s.childrenTime+(r.stop-r.start),
             childrenRanges := if s.countsRange r then s.childrenRanges.insert r else s.childrenRanges } := by
  by_cases h : s.countsRange r = true
  · have h' : ({ s with activeChildren := s.activeChildren-1 } : Segment).countsRange r = true := h
    simp [childComplete,h,h',addChildRange]
  · have h' : ¬ ({ s with activeChildren := s.activeChildren-1 } : Segment).countsRange r = true := h
    simp [childComplete,h,h']

/-- What becomes of an ancestor of a late descendant, which reaches it through its child. -/
def absorb (r : TimeRange) (s child : Segment) : Segment :=
  if child.rangeRecorded then s.addChildRange r else (s.addChildRange r).recountChild child.timeRange

theorem absorb_eq (r : TimeRange) (s child : Segment) : s.absorb r child =
    { s with childrenTime := if child.rangeRecorded then s.childrenTime
                             else s.childrenTime-(child.timeRange.stop-child.timeRange.start),
             childrenRanges := if child.rangeRecorded then s.childrenRanges.insert r
                               else (s.childrenRanges.insert r).insert child.timeRange } := by
  by_cases h : child.rangeRecorded = true <;> simp [absorb,h,addChildRange,recountChild]

end Segment

namespace SegmentTree

variable {t t' : SegmentTree} {i p : ℕ} {s s' q : Segment}

/-- Counts a child that has ended in its parent. -/
def countChild (t : SegmentTree) (parent child : ℕ) (r : TimeRange) : SegmentTree :=
  match t.get? parent with
  | none => t
  | some q =>
    let t := t.modify parent (Segment.childComplete r)
    if q.countsRange r then t.modify child Segment.markRangeRecorded else t

/-- Puts an ended segment in its place and counts it in its parent. -/
def endSegment (t : SegmentTree) (i : ℕ) (s : Segment) : SegmentTree :=
  match s.parent with
  | none => t.modify i fun _ => s
  | some parent => (t.modify i fun _ => s).countChild parent i s.timeRange

/-- A change in which no segment starts, ends or is finalized. -/
inductive Quiet (t : SegmentTree) : SegmentTree → Prop
  | relabel {t' : SegmentTree} (hs : t'.segments = t.segments) (ht : t'.totalTime = t.totalTime) :
      Quiet t t'
  | retouch (i : ℕ) {f : Segment → Segment} (hf : ∀ s, t.get? i = some s → s.Alike (f s)) :
      Quiet t (t.modify i f)
  | absorb {d c a : ℕ} {sd sc sa : Segment} (hd : t.get? d = some sd) (hdf : sd.isFinished = true)
      (hc : t.get? c = some sc) (hcf : sc.isFinished = true) (ha : t.get? a = some sa)
      (hp : sc.parent = some a) (hcd : c ∈ t.ancestors d) : Quiet t (t.recordDescendant sd.timeRange c a)

/-- A change of no more than the current segment or what is shown with a segment. -/
inductive Touch (t : SegmentTree) : SegmentTree → Prop
  | same : Touch t t
  | move (i : ℕ) : Touch t { t with current := i }
  | retouch (i : ℕ) {f : Segment → Segment} (hf : ∀ s : Segment, s.Alike (f s)) : Touch t (t.modify i f)

theorem Touch.quiet (h : Touch t t') : Quiet t t' := by
  cases h with
  | same => exact .relabel rfl rfl
  | move i => exact .relabel rfl rfl
  | retouch i hf => exact .retouch i fun s _ => hf s

/-- A change at a time. An orderly one starts no segment under one that has ended, and ends no segment
before its children. -/
inductive Change (now : Time) (orderly : Prop) (t : SegmentTree) : SegmentTree → Prop
  | quiet {t' : SegmentTree} (h : Quiet t t') : Change now orderly t t'
  | start {p : ℕ} {q s : Segment} (becomesCurrent : Bool) (hq : t.get? p = some q)
      (hs : ({ guid := s.guid, name := s.name, start := now } : Segment).Alike s)
      (ho : orderly → q.isFinished = false) : Change now orderly t (t.start s p becomesCurrent)
  | stop {i : ℕ} {s s' : Segment} (hs : t.get? i = some s) (hn : s.isFinished = false)
      (hs' : (s.stopAt now).Alike s') (ho : orderly → ∀ c ∈ t.children i, c.isFinished = true) :
      Change now orderly t (t.endSegment i s')
  | finalize {i : ℕ} {s : Segment} (hs : t.get? i = some s) (hf : s.isFinished = true)
      (hn : s.finalized = false) : Change now orderly t (t.finalize i)

theorem exists_of_modify {f : Segment → Segment} {j : ℕ} {u : Segment}
    (hu : (t.modify i f).get? j = some u) :
    ∃ v, t.get? j = some v ∧ (j = i ∧ u = f v ∨ j ≠ i ∧ u = v) := by
  rw [get?_modify] at hu
  by_cases hji : j = i
  · rw [if_pos hji.symm] at hu
    obtain ⟨v,hv,rfl⟩ := Option.map_eq_some_iff.mp hu
    exact ⟨v,hv,Or.inl ⟨hji,rfl⟩⟩
  · rw [if_neg (Ne.symm hji)] at hu
    exact ⟨u,hu,Or.inr ⟨hji,rfl⟩⟩

theorem size_start (t : SegmentTree) (s : Segment) (p : ℕ) (b : Bool) :
    (t.start s p b).size = t.size+1 := by
  simp [start,size,modify]

theorem get?_start (hp : p < t.size) (s : Segment) (b : Bool) (j : ℕ) :
    (t.start s p b).get? j =
      if j = t.size then some { s with parent := some p }
      else if j = p then (t.get? j).map Segment.childStart else t.get? j := by
  have hne : t.size ≠ p := hp.ne'
  simp only [start,get?,modify,size] at *
  rw [Array.getElem?_modify,Array.getElem?_push]
  grind

theorem get?_start_size (hp : p < t.size) (s : Segment) (b : Bool) :
    (t.start s p b).get? t.size = some { s with parent := some p } :=
  (get?_start hp s b t.size).trans (if_pos rfl)

/-- After a start each place but the new one holds what it held, and the parent has one more child. -/
theorem exists_of_start (hp : p < t.size) {s : Segment} {b : Bool} {j : ℕ} {u : Segment}
    (hu : (t.start s p b).get? j = some u) (hj : j ≠ t.size) :
    ∃ v, t.get? j = some v ∧ (j = p ∧ u = v.childStart ∨ j ≠ p ∧ u = v) := by
  rw [get?_start hp,if_neg hj] at hu
  split at hu
  · rename_i h
    obtain ⟨v,hv,rfl⟩ := Option.map_eq_some_iff.mp hu
    exact ⟨v,hv,Or.inl ⟨h,rfl⟩⟩
  · rename_i h
    exact ⟨u,hu,Or.inr ⟨h,rfl⟩⟩

@[simp] theorem size_countChild (t : SegmentTree) (p c : ℕ) (r : TimeRange) :
    (t.countChild p c r).size = t.size := by
  unfold countChild
  split
  · rfl
  · simp only
    split <;> simp

@[simp] theorem size_endSegment (t : SegmentTree) (i : ℕ) (s : Segment) :
    (t.endSegment i s).size = t.size := by
  unfold endSegment
  split <;> simp

theorem endSegment_of_parent {s : Segment} (hp : s.parent = some p) :
    t.endSegment i s = (t.modify i fun _ => s).countChild p i s.timeRange := by
  simp only [endSegment,hp]

theorem get?_endSegment_root (hs : t.get? i = some s) (hp : s'.parent = none) (j : ℕ) :
    (t.endSegment i s').get? j = if j = i then some s' else t.get? j := by
  simp only [endSegment,hp,get?_modify]
  grind

theorem get?_endSegment (hs : t.get? i = some s) (hp : s'.parent = some p) (hq : t.get? p = some q)
    (hne : p ≠ i) (j : ℕ) :
    (t.endSegment i s').get? j =
      if j = i then some { s' with rangeRecorded := s'.rangeRecorded || q.countsRange s'.timeRange }
      else if j = p then some (q.childComplete s'.timeRange) else t.get? j := by
  have hq' : (t.modify i fun _ => s').get? p = some q := by
    rw [get?_modify,if_neg hne.symm,hq]
  rw [endSegment_of_parent hp,countChild]
  simp only [hq']
  split
  · rename_i hr
    rw [get?_modify,get?_modify,get?_modify,hr,Bool.or_true]
    grind [Segment.markRangeRecorded]
  · rename_i hr
    have hf : q.countsRange s'.timeRange = false := by simpa using hr
    rw [get?_modify,get?_modify,hf,Bool.or_false]
    change _ = if j = i then some s' else if j = p then some (q.childComplete s'.timeRange) else t.get? j
    grind

/-- The segment that ends is marked if its parent counts it by its range. -/
theorem get?_endSegment_self (ht : t.Rooted) (hs : t.get? i = some s) (hp : s'.parent = s.parent) :
    ∃ r, (t.endSegment i s').get? i = some { s' with rangeRecorded := r } ∧
      ∀ {p q}, s'.parent = some p → t.get? p = some q →
        r = (s'.rangeRecorded || q.countsRange s'.timeRange) := by
  obtain hps | ⟨p,hps⟩ := s'.parent.eq_none_or_eq_some
  · exact ⟨s'.rangeRecorded,(get?_endSegment_root hs hps i).trans (if_pos rfl),
      fun h => by simp [hps] at h⟩
  · have hlt := ht.parent_lt hs (hp ▸ hps)
    obtain ⟨q,hq⟩ := ht.exists_parent hs (hp ▸ hps)
    refine ⟨_,(get?_endSegment hs hps hq hlt.ne i).trans (if_pos rfl),fun {r v} hr hv => ?_⟩
    cases Option.some.inj (hps.symm.trans hr)
    cases get?_inj hq hv
    rfl

theorem exists_of_endSegment (ht : t.Rooted) (hs : t.get? i = some s) (hp : s'.parent = s.parent)
    {j : ℕ} {u : Segment} (hu : (t.endSegment i s').get? j = some u) (hj : j ≠ i) :
    ∃ v, t.get? j = some v ∧
      (s'.parent = some j ∧ u = v.childComplete s'.timeRange ∨ s'.parent ≠ some j ∧ u = v) := by
  obtain hps | ⟨p,hps⟩ := s'.parent.eq_none_or_eq_some
  · rw [get?_endSegment_root hs hps,if_neg hj] at hu
    exact ⟨u,hu,Or.inr ⟨by simp [hps],rfl⟩⟩
  · obtain ⟨q,hq⟩ := ht.exists_parent hs (hp ▸ hps)
    rw [get?_endSegment hs hps hq (ht.parent_lt hs (hp ▸ hps)).ne,if_neg hj] at hu
    by_cases hjp : j = p
    · rw [if_pos hjp] at hu
      exact ⟨q,hjp ▸ hq,Or.inl ⟨hjp ▸ hps,(Option.some.inj hu).symm⟩⟩
    · rw [if_neg hjp] at hu
      exact ⟨u,hu,Or.inr ⟨by simpa [hps] using Ne.symm hjp,rfl⟩⟩

@[simp] theorem size_recordDescendant (t : SegmentTree) (r : TimeRange) (c a : ℕ) :
    (t.recordDescendant r c a).size = t.size := by
  unfold recordDescendant
  simp only
  split
  · split <;> simp
  · simp

theorem get?_recordDescendant {c a : ℕ} {sc sa : Segment} (hc : t.get? c = some sc)
    (ha : t.get? a = some sa) (hne : a ≠ c) (r : TimeRange) (j : ℕ) :
    (t.recordDescendant r c a).get? j =
      if j = c then some sc.markRangeRecorded else
        if j = a then some (sa.absorb r sc) else t.get? j := by
  have hc' : (t.modify a (Segment.addChildRange r)).get? c = some sc := by
    rw [get?_modify,if_neg hne,hc]
  unfold recordDescendant
  simp only [hc']
  split
  · rename_i hr
    have hm : sc.markRangeRecorded = sc := by
      cases sc
      simp_all [Segment.markRangeRecorded]
    rw [hm,get?_modify,Segment.absorb,if_pos hr]
    grind
  · rename_i hr
    rw [get?_modify,get?_modify,get?_modify,Segment.absorb,if_neg hr]
    grind

theorem exists_of_recordDescendant {c a : ℕ} {sc sa : Segment} (hc : t.get? c = some sc)
    (ha : t.get? a = some sa) (hne : a ≠ c) (r : TimeRange) {j : ℕ} {u : Segment}
    (hu : (t.recordDescendant r c a).get? j = some u) :
    ∃ v, t.get? j = some v ∧ (j = c ∧ u = v.markRangeRecorded ∨ j = a ∧ j ≠ c ∧ u = v.absorb r sc ∨
      j ≠ a ∧ j ≠ c ∧ u = v) := by
  rw [get?_recordDescendant hc ha hne] at hu
  by_cases hjc : j = c
  · rw [if_pos hjc] at hu
    exact ⟨sc,hjc ▸ hc,Or.inl ⟨hjc,(Option.some.inj hu).symm⟩⟩
  · rw [if_neg hjc] at hu
    by_cases hja : j = a
    · rw [if_pos hja] at hu
      exact ⟨sa,hja ▸ ha,Or.inr (Or.inl ⟨hja,hjc,(Option.some.inj hu).symm⟩)⟩
    · rw [if_neg hja] at hu
      exact ⟨u,hu,Or.inr (Or.inr ⟨hja,hjc,rfl⟩)⟩

theorem get?_finalize (hs : t.get? i = some s) (hn : s.finalized = false) :
    (t.finalize i).size = t.size ∧ (t.finalize i).totalTime = t.totalTime+s.exclusiveTime ∧
      ∃ s', s.recordExclusive.Alike s' ∧
        ∀ j, (t.finalize i).get? j = if j = i then some s' else t.get? j := by
  simp only [finalize,hs,hn,Bool.false_eq_true,if_false]
  refine ⟨by simp [size,modify],rfl,
    if t.isAsync then s.recordExclusive.addParameter "exclusive_duration_millis"
    (.real (Time.millis s.recordExclusive.exclusive)) else s.recordExclusive,?_,fun j => ?_⟩
  · split
    · exact Segment.alike_parameters _ _
    · exact Segment.Alike.refl _
  · exact (get?_modify t i _ j).trans (by grind)

theorem exists_of_finalize (hs : t.get? i = some s) (hn : s.finalized = false) {j : ℕ} {u : Segment}
    (hu : (t.finalize i).get? j = some u) :
    ∃ v, t.get? j = some v ∧ (j = i ∧ v = s ∧ s.recordExclusive.Alike u ∨ j ≠ i ∧ u = v) := by
  obtain ⟨-,-,s',hs',hget⟩ := get?_finalize hs hn
  rw [hget] at hu
  by_cases hji : j = i
  · rw [if_pos hji] at hu
    cases Option.some.inj hu
    exact ⟨s,hji ▸ hs,Or.inl ⟨hji,rfl,hs'⟩⟩
  · rw [if_neg hji] at hu
    exact ⟨u,hu,Or.inr ⟨hji,rfl⟩⟩

theorem finalize_cases (t : SegmentTree) (i : ℕ) :
    t.finalize i = t ∨ ∃ s, t.get? i = some s ∧ s.finalized = false := by
  cases hs : t.get? i with
  | none => exact Or.inl (by simp only [finalize,hs])
  | some s =>
    cases hn : s.finalized with
    | true => exact Or.inl (by simp only [finalize,hs,hn,if_true])
    | false => exact Or.inr ⟨s,rfl,hn⟩

end SegmentTree

end TraceEngine
