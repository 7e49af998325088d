import TraceEngine.Proofs.Transaction.Ended
import TraceEngine.Proofs.Transaction.Origins
import TraceEngine.Transaction.Snapshot

/-! The tree that a sample holds. It leaves out segments, and still the indexes of parents mean the same
in it as in the transaction: what is left out are the last segments, and no parent stands among them
without its children. -/
namespace TraceEngine.Transaction

variable {t : Transaction} {limit : ℕ}

theorem filter_eq_take {α : Type} {l : List α} {p : α → Bool} {m : ℕ}
    (h : ∀ i a, l[i]? = some a → p a = Decidable.decide (i < m)) : l.filter p = l.take m := by
  have hfirst : (l.take m).filter p = l.take m := by
    refine List.filter_eq_self.mpr fun a ha => ?_
    obtain ⟨i,hi⟩ := List.mem_iff_getElem?.mp ha
    rw [List.getElem?_take] at hi
    obtain ⟨hlt,hi⟩ := Option.ite_none_right_eq_some.mp hi
    simp [h i a hi,hlt]
  have hrest : (l.drop m).filter p = [] := by
    refine List.filter_eq_nil_iff.mpr fun a ha => ?_
    obtain ⟨i,hi⟩ := List.mem_iff_getElem?.mp ha
    rw [List.getElem?_drop] at hi
    simp [h (m+i) a hi]
  calc l.filter p = (l.take m ++ l.drop m).filter p := by rw [List.take_append_drop]
    _ = l.take m := by rw [List.filter_append,hfirst,hrest,List.append_nil]

/-- The segments within the limit are in the sample, and the root is whatever the limit. -/
structure Sampled (limit : ℕ) (t : Transaction) : Prop where
  segmentLimit : t.settings.segmentLimit = limit
  nonempty : 0 < t.tree.origins.length
  inSample : ∀ {i o}, t.tree.origins[i]? = some o → o.inSample = Decidable.decide (i < max limit 1)

theorem Fresh.sampled (h : t.Fresh) : Sampled t.settings.segmentLimit t where
  segmentLimit := rfl
  nonempty := t.tree.length_origins ▸ h.rooted.nonempty
  inSample {i o} ho := by
    rw [SegmentTree.getElem?_origins] at ho
    obtain ⟨s,hs,rfl⟩ := Option.map_eq_some_iff.mp ho
    obtain rfl := (h.get? hs).1
    obtain ⟨name,guid,rootGuid,traceId,start,settings,decider,rfl⟩ := h
    obtain rfl := Option.some.inj hs
    exact (decide_eq_true (Nat.one_pos.trans_le (Nat.le_max_right settings.segmentLimit 1))).symm

/-- A segment that starts is never the first, so the limit alone decides about it. -/
theorem Sampled.apply (h : Sampled limit t) (op : Operation) : Sampled limit (t.apply op) where
  segmentLimit := t.settings_apply op ▸ h.segmentLimit
  nonempty := h.nonempty.trans_le (t.grows_apply op).origins_isPrefix.length_le
  inSample {i o} hi := by
    rcases t.grows_apply op with heq | ⟨new,hnew,heq⟩
    · exact h.inSample (heq ▸ hi)
    · rw [heq,List.getElem?_append] at hi
      split at hi
      · exact h.inSample hi
      · rename_i hge
        rw [List.getElem?_singleton] at hi
        obtain ⟨hlast,hi⟩ := Option.ite_none_right_eq_some.mp hi
        obtain rfl := Option.some.inj hi
        -- Its place is the size of the tree, which is not zero, so the root's exception is not met.
        have hpos := h.nonempty
        rw [SegmentTree.length_origins] at hge hlast hpos
        rw [hnew,h.segmentLimit]
        exact decide_eq_decide.mpr (by omega)

theorem Sampled.run (h : Sampled limit t) (ops : List Operation) : Sampled limit (t.run ops) := by
  induction ops generalizing t with
  | nil => exact h
  | cons op ops ih => exact ih (h.apply op)

theorem Sampled.segments_eq (h : Sampled limit t) :
    t.toSample.segments = (t.tree.segments.toList.take (max limit 1)).map t.sampleSegment := by
  refine congrArg (List.map t.sampleSegment) (filter_eq_take fun i s hs => ?_)
  have hs' : t.tree.get? i = some s := by simpa [SegmentTree.get?] using hs
  exact h.inSample (o := s.origin) (by rw [SegmentTree.getElem?_origins,hs']; rfl)

theorem Sampled.getElem?_segments (h : Sampled limit t) (k : ℕ) :
    t.toSample.segments[k]? = if k < max limit 1 then (t.tree.get? k).map t.sampleSegment else none := by
  rw [h.segments_eq,List.getElem?_map,List.getElem?_take]
  split
  · simp [SegmentTree.get?]
  · rfl

/-- What a sample shows of a segment of a transaction: who it is, when it ran, and what was noted of it. -/
structure Shows (t : Transaction) (s : Segment) (q : SampleSegment) : Prop where
  guid : q.guid = s.guid
  name : q.name = s.name
  parent : q.parent = s.parent
  startOffset : q.startOffset = s.start-t.start
  times : q.duration = s.duration ∧ q.exclusive = s.exclusive
  parameters : q.parameters = s.parameters
  error : q.error = s.error

theorem shows_sampleSegment (t : Transaction) (s : Segment) : Shows t s (t.sampleSegment s) :=
  ⟨rfl,rfl,rfl,rfl,⟨rfl,rfl⟩,rfl,rfl⟩

/-- The tree in the sample of a transaction. Its segments are the first of the transaction, up to a limit,
the first of them is the root, and a parent stands in it before its children and shows the parent that
the segment has in the transaction. -/
structure ClosedTree (limit : ℕ) (t : Transaction) : Prop where
  segments : List.Forall₂ (Shows t) (t.tree.segments.toList.take (max limit 1)) t.toSample.segments
  length : t.toSample.segments.length = min t.tree.size (max limit 1)
  nonempty : t.toSample.segments ≠ []
  root : ∀ {k q}, t.toSample.segments[k]? = some q → (q.parent = none ↔ k = 0)
  parent : ∀ {k q p}, t.toSample.segments[k]? = some q → q.parent = some p →
    p < k ∧ ∃ s u v, t.tree.get? k = some s ∧ s.parent = some p ∧ t.tree.get? p = some u ∧
      t.toSample.segments[p]? = some v ∧ Shows t u v

/-- Whatever the limit and whatever was done, a sample holds a closed tree: the first segments of the
transaction, up to the limit but at least one, with the root as the only one without a parent. -/
theorem Fresh.closedTree (h : t.Fresh) (ops : List Operation) :
    ClosedTree t.settings.segmentLimit (t.run ops) := by
  have hsampled := h.sampled.run ops
  have hrooted := (h.reckoned.run ops).rooted
  have hlength : (t.run ops).toSample.segments.length =
      min (t.run ops).tree.size (max t.settings.segmentLimit 1) := by
    rw [hsampled.segments_eq,List.length_map,List.length_take,Array.length_toList,Nat.min_comm]
    rfl
  have hget : ∀ {k q}, (t.run ops).toSample.segments[k]? = some q → k < max t.settings.segmentLimit 1 ∧
      ∃ s, (t.run ops).tree.get? k = some s ∧ (t.run ops).sampleSegment s = q := by
    intro k q hq
    rw [hsampled.getElem?_segments] at hq
    obtain ⟨hk,hq⟩ := Option.ite_none_right_eq_some.mp hq
    exact ⟨hk,Option.map_eq_some_iff.mp hq⟩
  refine ⟨?segments,hlength,?nonempty,fun {k q} hq => ?root,fun {k q p} hq hp => ?parent⟩
  case segments =>
    rw [hsampled.segments_eq,List.forall₂_map_right_iff]
    exact List.forall₂_same.mpr fun s _ => (t.run ops).shows_sampleSegment s
  case nonempty =>
    rw [← List.length_pos_iff,hlength]
    exact lt_min hrooted.nonempty (Nat.one_pos.trans_le (Nat.le_max_right _ _))
  case root =>
    obtain ⟨-,s,hs,rfl⟩ := hget hq
    exact hrooted.parent_none hs
  case parent =>
    obtain ⟨hk,s,hs,rfl⟩ := hget hq
    have hlt := hrooted.parent_lt hs hp
    obtain ⟨u,hu⟩ := hrooted.exists_parent hs hp
    refine ⟨hlt,s,u,_,hs,hp,hu,?_,(t.run ops).shows_sampleSegment u⟩
    rw [hsampled.getElem?_segments,if_pos (hlt.trans hk),hu]
    rfl

def narrow (limit : ℕ) : Transaction := make "narrow" ⟨1⟩ ⟨2⟩ ⟨3⟩ 0 { segmentLimit := limit } ⟨.same .free⟩

theorem narrow_fresh (limit : ℕ) : (narrow limit).Fresh := ⟨_,_,_,_,_,_,_,rfl⟩

/-- Each segment starts under the one before, also under one past the limit. -/
def downwards : List Operation :=
  [.startNamed "first" { guid := ⟨4⟩, start := 1 },.startNamed "second" { guid := ⟨5⟩, start := 2 },
    .startNamed "third" { guid := ⟨6⟩, start := 3 }]

theorem closedTree_downwards : ClosedTree 2 ((narrow 2).run downwards) ∧
    ((narrow 2).run downwards).tree.size = 4 ∧
    ((narrow 2).run downwards).toSample.segments.map (fun q => (q.guid,q.name,q.parent,q.startOffset)) =
      [(⟨2⟩,"narrow",none,0),(⟨4⟩,"first",some 0,1)] :=
  ⟨Fresh.closedTree (narrow_fresh 2) downwards,by decide +kernel,by decide +kernel⟩

example : ((narrow 0).run downwards).toSample.segments.map (·.parent) = [none] := by decide +kernel

end TraceEngine.Transaction
