import TraceEngine.Proofs.Segment.Serial
import TraceEngine.Proofs.Transaction.ExclusiveTime

/-! Transactions that end without the mark for segments that ran side by side or outlived their parents.
In these every instant belongs to one segment, and the exclusive times add up to the duration. -/
namespace TraceEngine.Transaction

variable {t : Transaction}

theorem Fresh.serial (h : t.Fresh) : t.tree.Serial where
  plain _ i s hs := ⟨(h.get? hs).2.concurrentChildren,(h.get? hs).2.childrenRanges,
    (h.get? hs).2.rangeRecorded⟩
  standing _ p s hs hz := by simp [h.finalized_eq_false hs] at hz

theorem serial_apply (op : Operation) (h : Reckoned t) (hs : t.tree.Serial) :
    (t.apply op).tree.Serial := by
  cases effect_apply h.rooted op with
  | touch ht _ => exact hs.touch ht
  | start _ _ hq halike _ htree _ => exact htree ▸ hs.start _ hq halike
  | finishSegment _ _ htree _ => exact htree ▸ hs.finish h.rooted h.results _ _ _
  | finish _ _ htree _ => exact htree ▸ hs.close h.rooted h.results _ _

theorem Fresh.serial_run (h : t.Fresh) (ops : List Operation) : (t.run ops).tree.Serial :=
  (h.reckoned.run_induction serial_apply h.serial ops).2

/-- A transaction that is not marked has no range in any segment. The exclusive time of a segment is
the time in which it ran and no child did, each instant of the root is in just one of these, and the
total is the duration of the root. -/
theorem Fresh.totalTime_eq_duration (h : t.Fresh) (ops : List Operation) (stop : Time)
    (frames : List String) (chance : Chance)
    (htimes : t.OnTime (ops ++ [.finish stop frames chance]))
    (hasync : (t.run (ops ++ [.finish stop frames chance])).tree.isAsync = false) :
    (∀ i s, (t.run (ops ++ [.finish stop frames chance])).tree.get? i = some s →
      s.childrenRanges = [] ∧
        s.exclusive = ((t.run (ops ++ [.finish stop frames chance])).tree.own i).card) ∧
    (∀ x ∈ (t.run (ops ++ [.finish stop frames chance])).tree.instants 0,
      ∃! i, x ∈ (t.run (ops ++ [.finish stop frames chance])).tree.own i) ∧
    ∃ s, (t.run (ops ++ [.finish stop frames chance])).tree.get? 0 = some s ∧
      (t.run (ops ++ [.finish stop frames chance])).tree.totalTime = s.duration := by
  obtain ⟨now,hclocked⟩ := h.clocked.run htimes
  have hf := isFinished_run_finish (accounts_run h.rooted h.accounts ops).1 stop frames chance
  have hserial := h.serial_run (ops ++ [.finish stop frames chance])
  generalize t.run (ops ++ [.finish stop frames chance]) = u at hasync hclocked hf hserial ⊢
  have hplain := hserial.plain hasync
  have hfinalized := hclocked.ended hf
  have hall : ∀ {i s}, u.tree.get? i = some s → s.isFinished = true :=
    fun hs => hclocked.reckoned.isFinished_of_ended hf hs
  have hresult : ∀ i s, u.tree.get? i = some s → s.exclusive = (u.tree.own i).card := by
    intro i s hs
    rw [hserial.standing hasync i s hs (hfinalized i s hs)]
    exact ((hplain.orderly hclocked.sound.timely hall).card_own hclocked.sound hs (hall hs)).symm
  refine ⟨fun i s hs => ⟨(hplain i s hs).childrenRanges,hresult i s hs⟩,
    fun x hx => hplain.existsUnique_own hclocked.sound hall hx,?_⟩
  obtain ⟨root,hroot⟩ := SegmentTree.exists_get? hclocked.sound.rooted.nonempty
  refine ⟨root,hroot,?_⟩
  rw [hclocked.sound.results.total,SegmentTree.weigh_eq_sum,Segment.duration_eq_card,
    ← SegmentTree.instants_of_get? hroot,← hplain.sum_card_own hclocked.sound hall]
  refine Finset.sum_congr rfl fun i hi => ?_
  obtain ⟨s,hs⟩ := SegmentTree.exists_get? (Finset.mem_range.mp hi)
  rw [hs,Option.map_some,Option.getD_some,hresult i s hs]

/-- A child with a child of its own, and one after it. -/
def nested : List Operation :=
  [.startUnder 0 1,.startUnder 1 2,.stopAt 2 3,.stopAt 1 5,.startUnder 0 6,.stopAt 3 7]

theorem totalTime_eq_duration_nested :
    (∀ i s, (plain.run (nested ++ [.finish 8 [] ⟨fun _ => true,0⟩])).tree.get? i = some s →
      s.childrenRanges = [] ∧
        s.exclusive = ((plain.run (nested ++ [.finish 8 [] ⟨fun _ => true,0⟩])).tree.own i).card) ∧
    (∀ x ∈ (plain.run (nested ++ [.finish 8 [] ⟨fun _ => true,0⟩])).tree.instants 0,
      ∃! i, x ∈ (plain.run (nested ++ [.finish 8 [] ⟨fun _ => true,0⟩])).tree.own i) ∧
    ∃ s, (plain.run (nested ++ [.finish 8 [] ⟨fun _ => true,0⟩])).tree.get? 0 = some s ∧
      (plain.run (nested ++ [.finish 8 [] ⟨fun _ => true,0⟩])).tree.totalTime = s.duration :=
  Fresh.totalTime_eq_duration plain_fresh nested 8 [] ⟨fun _ => true,0⟩ (by unfold OnTime; decide)
    (by decide +kernel)

end TraceEngine.Transaction
