import TraceEngine.Proofs.Segment.Accounts
import TraceEngine.Proofs.Transaction.Run

/-! The accounts of every segment agree with its children in every state that a transaction can
reach, whatever the times that were passed. -/
namespace TraceEngine.Transaction

open SegmentTree (Sums Ranges Accounts weigh running scalar)

variable {t t' : Transaction} {op : Operation}

theorem Fresh.accounts (h : t.Fresh) : t.tree.Accounts := by
  refine ⟨⟨fun {p s} hs => ?_,fun {p s} hs => ?_⟩,
    ⟨fun {p s} hs => ?_,fun {c s} hs hr => ?_,?_,fun {p s x} hs hx => ?_⟩⟩
  · rw [SegmentTree.weigh_eq_zero fun hv => SegmentTree.running_of_parent_ne (h.parent_ne hv)]
    exact (h.get? hs).2.activeChildren
  · rw [SegmentTree.weigh_eq_zero fun hv => SegmentTree.scalar_of_parent_ne (h.parent_ne hv)]
    exact (h.get? hs).2.childrenTime
  · have hranges : s.childrenRanges = [] := (h.get? hs).2.childrenRanges
    exact hranges.symm ▸ Coverage.separated_nil
  · have hrecorded : s.rangeRecorded = false := (h.get? hs).2.rangeRecorded
    simp [hrecorded] at hr
  · intro c p sc s hc hp _ _
    exact absurd hp (h.parent_ne hc)
  · have hranges : s.childrenRanges = [] := (h.get? hs).2.childrenRanges
    simp [hranges] at hx

theorem accounts_apply (ht : t.tree.Rooted) (ha : t.tree.Accounts) (op : Operation) :
    (t.apply op).tree.Rooted ∧ (t.apply op).tree.Accounts := by
  have hchanges := changes_apply ht op 0
  exact ⟨SegmentTree.Changes.rooted ht hchanges,SegmentTree.Changes.accounts ht ha hchanges⟩

theorem accounts_run (ht : t.tree.Rooted) (ha : t.tree.Accounts) (ops : List Operation) :
    (t.run ops).tree.Rooted ∧ (t.run ops).tree.Accounts := by
  induction ops generalizing t with
  | nil => exact ⟨ht,ha⟩
  | cons op ops ih =>
    obtain ⟨ht',ha'⟩ := accounts_apply ht ha op
    exact ih ht' ha'

/-- In every reachable state each child is accounted for in just one way: as one that runs, by its
duration, or, if its range is recorded, in the coverage of the parent, which is in ascending order
with gaps. -/
theorem Fresh.children_accounted (h : t.Fresh) (ops : List Operation) {p : ℕ} {s : Segment}
    (hs : (t.run ops).tree.get? p = some s) :
    s.activeChildren = (((t.run ops).tree.children p).filter (!·.isFinished)).length ∧
      s.childrenTime =
        ((((t.run ops).tree.children p).filter
          fun c => c.isFinished && !c.rangeRecorded).map (·.duration)).sum ∧
      s.childrenRanges.Separated ∧
      ∀ c ∈ (t.run ops).tree.children p, c.rangeRecorded = true →
        c.isFinished = true ∧ c.timeRange.instants ⊆ s.childrenRanges.instants := by
  obtain ⟨-,ha⟩ := accounts_run h.rooted h.accounts ops
  refine ⟨?_,?_,ha.ranges.separated hs,fun c hc hr => ?_⟩
  · rw [SegmentTree.length_filter_children,ha.sums.active hs]
  · rw [SegmentTree.sum_duration_children,ha.sums.counted hs]
  · obtain ⟨i,hi,hp⟩ := SegmentTree.mem_children.mp hc
    exact ⟨ha.ranges.recorded hi hr,ha.ranges.covers hi hp hs hr⟩

/-- A grandchild that ends last makes the root count its child by its range. -/
def lateEnd : List Operation := [.startUnder 0 1,.startUnder 1 2,.stopAt 1 3,.stopAt 2 5]

theorem children_accounted_lateEnd : ∃ s, (plain.run lateEnd).tree.get? 0 = some s ∧
    s.activeChildren = (((plain.run lateEnd).tree.children 0).filter (!·.isFinished)).length ∧
    s.childrenTime =
      ((((plain.run lateEnd).tree.children 0).filter
        fun c => c.isFinished && !c.rangeRecorded).map (·.duration)).sum ∧
    s.childrenRanges.Separated ∧
    ∀ c ∈ (plain.run lateEnd).tree.children 0, c.rangeRecorded = true →
      c.isFinished = true ∧ c.timeRange.instants ⊆ s.childrenRanges.instants := by
  have hsome : ((plain.run lateEnd).tree.get? 0).isSome = true := by decide +kernel
  obtain ⟨s,hs⟩ := Option.isSome_iff_exists.mp hsome
  exact ⟨s,hs,Fresh.children_accounted plain_fresh lateEnd hs⟩

end TraceEngine.Transaction
