import TraceEngine.Proofs.Segment.Results
import TraceEngine.Proofs.Transaction.Accounts

/-! Transactions that have ended. Whatever times were passed, every segment of one has its result, and
no operation changes more than what is shown of it. -/
namespace TraceEngine.Transaction

variable {t t' : Transaction} {op : Operation}

theorem Fresh.results (h : t.Fresh) : t.tree.Results where
  total := by
    rw [SegmentTree.weigh_eq_zero fun hs => (h.get? hs).2.exclusive]
    obtain ⟨name,guid,rootGuid,traceId,start,settings,decider,rfl⟩ := h
    rfl
  ended hs hf := by simp [h.finalized_eq_false hs] at hf
  pending hs _ := (h.get? hs).2.exclusive

/-- All that is known of a transaction, whatever its clock did. -/
structure Reckoned (t : Transaction) : Prop where
  rooted : t.tree.Rooted
  accounts : t.tree.Accounts
  results : t.tree.Results
  ended : t.isFinished = true → ∀ i s, t.tree.get? i = some s → s.finalized = true

theorem Fresh.reckoned (h : t.Fresh) : Reckoned t where
  rooted := h.rooted
  accounts := h.accounts
  results := h.results
  ended hf := by simp [h.isFinished_eq_false] at hf

theorem Reckoned.isFinished_of_ended (h : Reckoned t) (hf : t.isFinished = true) {i : ℕ} {s : Segment}
    (hs : t.tree.get? i = some s) : s.isFinished = true :=
  h.results.ended hs (h.ended hf i s hs)

/-- Once a transaction has ended, an operation changes no more than what is shown of it. -/
theorem Reckoned.touch_of_ended (h : Reckoned t) (hf : t.isFinished = true) (op : Operation) :
    t.tree.Touch (t.apply op).tree ∧ (t.apply op).stop = t.stop := by
  cases effect_apply h.rooted op with
  | touch h hstop => exact ⟨h,hstop⟩
  | start _ hopen => simp [hf] at hopen
  | @finishSegment i _ b _ _ htree hstop =>
    rw [htree]
    rcases t.tree.finish_cases b i _ with he | ⟨s,hs,hn⟩
    · rw [he]
      exact ⟨.same,hstop⟩
    · simp [h.isFinished_of_ended hf hs] at hn
  | finish _ hopen => simp [hf] at hopen

/-- A transaction ends only when its tree is closed. -/
theorem exists_close_of_ended (ht : t.tree.Rooted) (hopen : t.isFinished = false)
    (hf : (t.apply op).isFinished = true) :
    ∃ now frames chance, op = .finish now frames chance ∧
      (t.apply op).tree = t.tree.close (t.backtrace frames) now := by
  have hstill : (t.apply op).stop ≠ t.stop := by
    intro hstop
    rw [isFinished,hstop] at hf
    simp [isFinished,hf] at hopen
  cases effect_apply ht op with
  | touch _ hstop => exact absurd hstop hstill
  | start _ _ _ _ _ _ hstop => exact absurd hstop hstill
  | finishSegment _ _ _ hstop => exact absurd hstop hstill
  | finish hop _ htree _ => exact ⟨_,_,_,hop,htree⟩

theorem Reckoned.changes (h : Reckoned t) (op : Operation) (now : Time) :
    SegmentTree.Changes (op.time?.getD now) False t.tree (t.apply op).tree :=
  changes_apply h.rooted op now

theorem Reckoned.apply (h : Reckoned t) (op : Operation) : Reckoned (t.apply op) := by
  have hc := h.changes op 0
  refine ⟨hc.rooted h.rooted,hc.accounts h.rooted h.accounts,hc.results h.rooted h.results,
    fun hf i s hs => ?_⟩
  cases hopen : t.isFinished with
  | true =>
    obtain ⟨v,hv,hk⟩ := (h.touch_of_ended hopen op).1.quiet.exists_get? h.rooted hs
    exact hk.finalized.trans (h.ended hopen i v hv)
  | false =>
    obtain ⟨now,frames,chance,-,htree⟩ := exists_close_of_ended h.rooted hopen hf
    exact SegmentTree.finalized_close (t.backtrace frames) now (htree ▸ hs)

theorem Reckoned.run_induction {P : Transaction → Prop}
    (hstep : ∀ {t : Transaction} (op : Operation), Reckoned t → P t → P (t.apply op))
    (h : Reckoned t) (hP : P t) (ops : List Operation) : Reckoned (t.run ops) ∧ P (t.run ops) := by
  induction ops generalizing t with
  | nil => exact ⟨h,hP⟩
  | cons op ops ih => exact ih (h.apply op) (hstep op h hP)

theorem Reckoned.run (h : Reckoned t) (ops : List Operation) : Reckoned (t.run ops) :=
  (Reckoned.run_induction (P := fun _ => True) (fun _ _ _ => trivial) h trivial ops).1

end TraceEngine.Transaction
