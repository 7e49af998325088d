import TraceEngine.Proofs.Segment.Orderly
import TraceEngine.Proofs.Segment.Reach
import TraceEngine.Proofs.Segment.Total
import TraceEngine.Proofs.Transaction.Ended

/-! The exclusive times of the segments of a transaction that has ended, if the times passed never
went back: what they add up to, what they leave out at least, and, when segments end in order, what
they are. -/
namespace TraceEngine.Transaction

open SegmentTree (AllReached AllSettled Pending)

variable {t t' : Transaction} {op : Operation} {now : Time} {p : ℕ}

/-- All that is known of a transaction at a time of the clock. -/
structure Clocked (now : Time) (t : Transaction) : Prop where
  sound : t.tree.Sound now
  settled : t.tree.AllSettled
  ended : t.isFinished = true → ∀ i s, t.tree.get? i = some s → s.finalized = true

theorem Fresh.timely (h : t.Fresh) : t.tree.Timely t.start where
  started hs := (h.get? hs).2.start.le
  stopped hs he := by
    have hrunning := h.segment_running hs
    simp [Segment.isFinished_of_stop he] at hrunning
  nested hc hp _ := absurd hp (h.parent_ne hc)
  within hc hp _ _ _ _ := absurd hp (h.parent_ne hc)
  sequential ha _ _ hp := absurd hp (h.parent_ne ha)
  apart ha _ hp := absurd hp (h.parent_ne ha)

theorem Fresh.clocked (h : t.Fresh) : Clocked t.start t where
  sound := ⟨h.rooted,h.accounts,h.results,h.timely⟩
  settled hs hf := by simp [h.finalized_eq_false hs] at hf
  ended hf := by simp [h.isFinished_eq_false] at hf

theorem Clocked.reckoned (h : Clocked now t) : Reckoned t :=
  ⟨h.sound.rooted,h.sound.accounts,h.sound.results,h.ended⟩

theorem Clocked.changes (h : Clocked now t) (op : Operation) (orderly : Prop)
    (ho : orderly → t.orderlyStep op = true) :
    SegmentTree.Changes (op.time?.getD now) orderly t.tree (t.apply op).tree :=
  (effect_apply h.sound.rooted op).changes _ orderly h.sound.rooted
    (fun x hx => by rw [hx,Option.getD_some]) ho

theorem le_time (hle : ∀ x, op.time? = some x → now ≤ x) : now ≤ op.time?.getD now := by
  cases hx : op.time? with
  | none => exact le_rfl
  | some x => exact hle x hx

theorem Clocked.apply (h : Clocked now t) (hle : ∀ x, op.time? = some x → now ≤ x) :
    Clocked (op.time?.getD now) (t.apply op) := by
  have hc := h.changes op False False.elim
  exact ⟨h.sound.changes (le_time hle) hc,AllSettled.changes h.sound (le_time hle) h.settled hc,
    (h.reckoned.apply op).ended⟩

theorem always_true (t : Transaction) (ops : List Operation) :
    always (fun _ _ => true) t ops = true := by
  induction ops generalizing t with
  | nil => rfl
  | cons op ops ih => simpa [always] using ih (t.apply op)

theorem Clocked.run (h : Clocked now t) {ops : List Operation}
    (htimes : (now::ops.filterMap Operation.time?).Pairwise (· ≤ ·)) :
    ∃ now', Clocked now' (t.run ops) :=
  run_induction (I := Clocked) (fun h hle _ => h.apply hle) h htimes (always_true t ops)

/-- No time is lost: the total is no less than the time in which some segment ran, and so no less
than the duration of the root. -/
theorem Fresh.busy_le_totalTime (h : t.Fresh) (ops : List Operation) (stop : Time)
    (frames : List String) (chance : Chance)
    (htimes : t.OnTime (ops ++ [.finish stop frames chance])) :
    (Segment.busy (t.run (ops ++ [.finish stop frames chance])).tree.segments.toList).card ≤
        (t.run (ops ++ [.finish stop frames chance])).tree.totalTime ∧
      ∃ s, (t.run (ops ++ [.finish stop frames chance])).tree.get? 0 = some s ∧
        s.duration ≤ (t.run (ops ++ [.finish stop frames chance])).tree.totalTime := by
  obtain ⟨now',hc⟩ := h.clocked.run htimes
  have hf := isFinished_run_finish (accounts_run h.rooted h.accounts ops).1 stop frames chance
  have htotal : (Segment.busy (t.run (ops ++ [.finish stop frames chance])).tree.segments.toList).card ≤
      (t.run (ops ++ [.finish stop frames chance])).tree.totalTime := by
    rw [hc.sound.results.total]
    exact AllSettled.card_busy_le hc.sound.rooted hc.settled fun hs => hc.ended hf _ _ hs
  obtain ⟨s,hs⟩ := SegmentTree.exists_get? hc.sound.rooted.nonempty
  refine ⟨htotal,s,hs,le_trans ?_ htotal⟩
  rw [Segment.duration_eq_card]
  exact Finset.card_le_card fun x hx => Segment.mem_busy.mpr ⟨s,SegmentTree.mem_segments.mpr ⟨0,hs⟩,hx⟩

theorem busy_le_totalTime_lateEnd :
    (Segment.busy (plain.run (lateEnd ++ [.finish 6 [] ⟨fun _ => true,0⟩])).tree.segments.toList).card ≤
        (plain.run (lateEnd ++ [.finish 6 [] ⟨fun _ => true,0⟩])).tree.totalTime ∧
      ∃ s, (plain.run (lateEnd ++ [.finish 6 [] ⟨fun _ => true,0⟩])).tree.get? 0 = some s ∧
        s.duration ≤ (plain.run (lateEnd ++ [.finish 6 [] ⟨fun _ => true,0⟩])).tree.totalTime :=
  Fresh.busy_le_totalTime plain_fresh lateEnd 6 [] ⟨fun _ => true,0⟩ (by unfold OnTime; decide)

/-- What is known besides in an orderly run. -/
structure Precise (now : Time) (t : Transaction) : Prop where
  clocked : Clocked now t
  orderly : t.tree.Orderly
  results : t.tree.Exact

theorem Fresh.precise (h : t.Fresh) : Precise t.start t where
  clocked := h.clocked
  orderly _ _ _ _ _ hc hq := absurd hq (h.parent_ne hc)
  results _ _ hs hf := by simp [h.finalized_eq_false hs] at hf

theorem Precise.apply (h : Precise now t) (hle : ∀ x, op.time? = some x → now ≤ x)
    (hok : t.orderlyStep op = true) : Precise (op.time?.getD now) (t.apply op) := by
  have hchanges := h.clocked.changes op True fun _ => hok
  obtain ⟨horderly,hexact⟩ :=
    SegmentTree.Exact.changes h.clocked.sound (le_time hle) h.orderly h.results hchanges
  exact ⟨h.clocked.apply hle,horderly,hexact⟩

/-- In an orderly run the exclusive time of a segment and the time in which some child ran make up
its duration. -/
theorem Fresh.exclusive_add_busy_children (h : t.Fresh) (ops : List Operation) (stop : Time)
    (frames : List String) (chance : Chance) (htimes : t.OnTime (ops ++ [.finish stop frames chance]))
    (ho : t.orderly (ops ++ [.finish stop frames chance]) = true) {s : Segment}
    (hs : (t.run (ops ++ [.finish stop frames chance])).tree.get? p = some s) :
    s.exclusive+(Segment.busy ((t.run (ops ++ [.finish stop frames chance])).tree.children p)).card =
      s.duration := by
  obtain ⟨now',hprecise⟩ := run_induction (I := Precise) (fun h hle hok => h.apply hle hok) h.precise
    htimes ho
  have hf := isFinished_run_finish (accounts_run h.rooted h.accounts ops).1 stop frames chance
  exact hprecise.results p s hs (hprecise.clocked.ended hf p s hs)

/-- Two children side by side, and one after them. -/
def inOrder : List Operation :=
  [.startUnder 0 1,.startUnder 0 2,.stopAt 1 3,.stopAt 2 4,.startUnder 0 5,.stopAt 3 7]

theorem exclusive_add_busy_children_inOrder :
    ∃ s, (plain.run (inOrder ++ [.finish 8 [] ⟨fun _ => true,0⟩])).tree.get? 0 = some s ∧
      s.exclusive+
        (Segment.busy ((plain.run (inOrder ++ [.finish 8 [] ⟨fun _ => true,0⟩])).tree.children 0)).card =
        s.duration := by
  have hsome : ((plain.run (inOrder ++ [.finish 8 [] ⟨fun _ => true,0⟩])).tree.get? 0).isSome = true := by
    decide +kernel
  obtain ⟨s,hs⟩ := Option.isSome_iff_exists.mp hsome
  exact ⟨s,hs,Fresh.exclusive_add_busy_children plain_fresh inOrder 8 [] ⟨fun _ => true,0⟩
    (by unfold OnTime; decide) (by decide +kernel) hs⟩

/-- Before a transaction ends, a segment waits for its result; after that, the result leaves out all
that ran below the segment. -/
structure Waiting (p : ℕ) (t : Transaction) : Prop where
  pending : t.isFinished = false → t.tree.AllReached ∧ ∀ s, t.tree.get? p = some s → s.finalized = false
  bounded : t.isFinished = true → ∀ s, t.tree.get? p = some s →
    s.exclusive+(s.timeRange.instants ∩ Segment.busy (t.tree.descendants p)).card ≤ s.duration

theorem Fresh.waiting (h : t.Fresh) (p : ℕ) : Waiting p t where
  pending _ := by
    refine ⟨fun d sd hd hf => ?_,fun s hs => h.finalized_eq_false hs⟩
    simp [h.segment_running hd] at hf
  bounded hf := by simp [h.isFinished_eq_false] at hf

theorem Waiting.quiet (hc : Clocked now t) (h : Waiting p t) (hq : t.tree.Quiet t'.tree)
    (hstop : t'.stop = t.stop) :
    Waiting p t' where
  pending hf := by
    obtain ⟨hreached,hpending⟩ := h.pending (by rwa [isFinished,← hstop])
    refine ⟨hreached.quiet hc.sound hq,fun s hs => ?_⟩
    obtain ⟨v,hv,hk⟩ := hq.exists_get? hc.sound.rooted hs
    exact hk.finalized.trans (hpending v hv)
  bounded hf s hs := by
    obtain ⟨v,hv,hk⟩ := hq.exists_get? hc.sound.rooted hs
    rw [hk.exclusive,Segment.duration,Segment.timeRange_of_times hk.times,
      (hq.sameTimes hc.sound.rooted).busy_descendants]
    exact h.bounded (by rwa [isFinished,← hstop]) v hv

theorem recordsStep_eq_true {s u : Segment} (hs : t.tree.get? p = some s) (hn : s.isFinished = false)
    (hr : s.recordOnFinish = true) (hu : (t.apply op).tree.get? p = some u) (hf : u.isFinished = true) :
    recordsStep p t op = true := by
  simp [recordsStep,hs,hn,hr,hu,hf]

theorem Waiting.apply (hc : Clocked now t) (h : Waiting p t) (hle : ∀ x, op.time? = some x → now ≤ x)
    (hok : recordsStep p t op = false) : Waiting p (t.apply op) := by
  cases hopen : t.isFinished with
  | true =>
    obtain ⟨ht,hstop⟩ := hc.reckoned.touch_of_ended hopen op
    exact h.quiet hc ht.quiet hstop
  | false =>
    obtain ⟨hreached,hpending⟩ := h.pending hopen
    cases effect_apply hc.sound.rooted op with
    | touch ht hstop => exact h.quiet hc ht.quiet hstop
    | @start x q u s b hnow _ hq hs _ htree hstop =>
      have hstill : (t.apply op).isFinished = false := by rwa [isFinished,hstop]
      refine ⟨fun _ => ?_,fun hf => by simp [hstill] at hf⟩
      rw [htree]
      refine ⟨hreached.start hc.sound (hle x hnow) b hq hs,fun v hv => ?_⟩
      by_cases hpn : p = t.tree.size
      · subst hpn
        have hnew := SegmentTree.get?_start_size (SegmentTree.lt_size_of_get? hq) s b
        cases SegmentTree.get?_inj hnew hv
        exact hs.finalized
      · obtain ⟨w,hw,-,he,-⟩ := SegmentTree.exists_result_of_start
          (SegmentTree.lt_size_of_get? hq) hv hpn
        exact he.trans (hpending w hw)
    | @finishSegment i x b hnow _ htree hstop =>
      have hstill : (t.apply op).isFinished = false := by rwa [isFinished,hstop]
      refine ⟨fun _ => ⟨?_,fun u hu => ?_⟩,fun hf => by simp [hstill] at hf⟩
      · rw [htree]
        exact hreached.finish hc.sound (hle x hnow) b i
      · by_contra hf
        have hu' := hu
        rw [htree] at hu'
        obtain ⟨s,hs,hz | ⟨-,hn,hr⟩⟩ :=
          SegmentTree.finalized_of_finish hc.sound.rooted hu' (by simpa using hf)
        · simp [hpending s hs] at hz
        · have huf := (hc.apply hle).sound.results.ended hu (by simpa using hf)
          simp [recordsStep_eq_true hs hn hr hu huf] at hok
    | @finish x frames chance hop _ htree hstop =>
      refine ⟨fun hf => by simp [hstop] at hf,fun _ u hu => ?_⟩
      have huf := (hc.reckoned.apply op).isFinished_of_ended hstop hu
      have hwaits : t.tree.Pending p := fun s hs => by
        refine ⟨hpending s hs,fun hn => ?_⟩
        by_contra hr
        simp [recordsStep_eq_true hs hn (by simpa using hr) hu huf] at hok
      rw [htree] at hu ⊢
      exact hreached.exclusive_close_add_le hc.sound (hle x (congrArg Operation.time? hop)) hwaits _ hu

/-- A segment that does not record on finish has no exclusive time in an instant in which something
ran below it, in whatever order the segments between them ended. -/
theorem Fresh.exclusive_add_busy_descendants_le (h : t.Fresh) (ops : List Operation) (stop : Time)
    (frames : List String) (chance : Chance) (htimes : t.OnTime (ops ++ [.finish stop frames chance]))
    (hr : t.neverRecords p (ops ++ [.finish stop frames chance]) = true) {s : Segment}
    (hs : (t.run (ops ++ [.finish stop frames chance])).tree.get? p = some s) :
    s.exclusive+(s.timeRange.instants ∩
      Segment.busy ((t.run (ops ++ [.finish stop frames chance])).tree.descendants p)).card ≤
        s.duration := by
  have hstep : ∀ {now : Time} {t : Transaction} {op : Operation}, Clocked now t ∧ Waiting p t →
      (∀ x, op.time? = some x → now ≤ x) → (!recordsStep p t op) = true →
        Clocked (op.time?.getD now) (t.apply op) ∧ Waiting p (t.apply op) := by
    rintro now t op ⟨hc,hw⟩ hle hok
    exact ⟨hc.apply hle,hw.apply hc hle (by simpa using hok)⟩
  obtain ⟨now',-,hw⟩ := run_induction (I := fun now t => Clocked now t ∧ Waiting p t) hstep
    ⟨h.clocked,h.waiting p⟩
    htimes hr
  have hf := isFinished_run_finish (accounts_run h.rooted h.accounts ops).1 stop frames chance
  exact hw.bounded hf s hs

theorem exclusive_add_busy_descendants_le_lateEnd :
    ∃ s, (plain.run (lateEnd ++ [.finish 6 [] ⟨fun _ => true,0⟩])).tree.get? 0 = some s ∧
      s.exclusive+(s.timeRange.instants ∩
        Segment.busy
          ((plain.run (lateEnd ++ [.finish 6 [] ⟨fun _ => true,0⟩])).tree.descendants 0)).card ≤
        s.duration := by
  have hsome : ((plain.run (lateEnd ++ [.finish 6 [] ⟨fun _ => true,0⟩])).tree.get? 0).isSome = true := by
    decide +kernel
  obtain ⟨s,hs⟩ := Option.isSome_iff_exists.mp hsome
  exact ⟨s,hs,Fresh.exclusive_add_busy_descendants_le plain_fresh lateEnd 6 [] ⟨fun _ => true,0⟩
    (by unfold OnTime; decide) (by decide +kernel) hs⟩

end TraceEngine.Transaction
