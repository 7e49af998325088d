import TraceEngine.Proofs.Segment.Siblings
import TraceEngine.Proofs.Transaction.Ended

/-! Transactions whose segments have all started before one of them ends. If each segment ends at a
time of its own, within its parent, then the order in which the ends are reported does not matter. -/
namespace TraceEngine.Transaction

open SegmentTree (get?_inj lt_size_of_get?)

variable {t u : Transaction} {op : Operation} {limit : ℕ} {stop : ℕ → Time} {frames : ℕ → List String}
  {ids : List ℕ}

/-- Segments have started and none has ended. Only those past the limit record on finish. -/
structure Opened (limit : ℕ) (t : Transaction) : Prop where
  isOpen : t.isFinished = false
  segmentLimit : t.settings.segmentLimit = limit
  running : t.tree.AllRunning
  recording : ∀ {i s}, t.tree.get? i = some s → s.recordOnFinish = true → limit ≤ i
  sideBySide : t.tree.SideBySide

theorem Fresh.opened (h : t.Fresh) : Opened t.settings.segmentLimit t where
  isOpen := h.isFinished_eq_false
  segmentLimit := rfl
  running i s hs := h.segment_running hs
  recording := by
    intro i s hs hr
    obtain rfl := (h.get? hs).1
    obtain ⟨name,guid,rootGuid,traceId,start,settings,decider,rfl⟩ := h
    cases Option.some.inj hs
    cases hr
  sideBySide := {
    concurrent := fun ha _ hp _ _ _ => absurd hp (h.parent_ne ha)
    recorded := fun hc hp _ _ _ => absurd hp (h.parent_ne hc) }

namespace Opened

theorem touch (h : Opened limit t) (ht : t.tree.Rooted) (htouch : t.tree.Touch u.tree)
    (hstop : u.stop = t.stop) (hsettings : u.settings = t.settings)
    (hrecord : t.tree.SameRecording u.tree) : Opened limit u where
  isOpen := (congrArg Option.isSome hstop).trans h.isOpen
  segmentLimit := hsettings ▸ h.segmentLimit
  running i s hs := by
    obtain ⟨v,hv,hk⟩ := htouch.quiet.exists_get? ht hs
    exact (Segment.isFinished_of_times hk.times).trans (h.running i v hv)
  recording {i s} hs hr := by
    have hsame := hrecord i
    rw [hs,Option.map_some] at hsame
    obtain ⟨v,hv,hvr⟩ := Option.map_eq_some_iff.mp hsame.symm
    exact h.recording hv (hvr.trans hr)
  sideBySide := by
    have hchange : SegmentTree.Change 0 False t.tree u.tree := .quiet htouch.quiet
    exact h.sideBySide.change ht hchange htouch.quiet.size

theorem start (h : Opened limit t) (hr : Reckoned t) {now : Time} {p : ℕ} {q s : Segment} {b : Bool}
    (hq : t.tree.get? p = some q)
    (hs : ({ guid := s.guid, name := s.name, start := now } : Segment).Alike s)
    (hrecord : s.recordOnFinish = Decidable.decide (t.settings.segmentLimit ≤ t.tree.size))
    (htree : u.tree = t.tree.start s p b) (hstop : u.stop = t.stop)
    (hsettings : u.settings = t.settings) : Opened limit u where
  isOpen := (congrArg Option.isSome hstop).trans h.isOpen
  segmentLimit := hsettings ▸ h.segmentLimit
  running := htree ▸ h.running.start b hq hs
  recording {i v} hv hrv := by
    rw [htree] at hv
    have hp := lt_size_of_get? hq
    by_cases hi : i = t.tree.size
    · subst hi
      cases get?_inj (SegmentTree.get?_start_size hp s b) hv
      exact h.segmentLimit ▸ of_decide_eq_true (hrecord.symm.trans hrv)
    · obtain ⟨w,hw,⟨-,rfl⟩ | ⟨-,rfl⟩⟩ := SegmentTree.exists_of_start hp hv hi
      · exact h.recording (s := w) hw hrv
      · exact h.recording hw hrv
  sideBySide := htree ▸ h.sideBySide.start hr.rooted hr.accounts.sums h.running b hq hs

theorem apply (h : Opened limit t) (hr : Reckoned t) (hop : op.opens = true) :
    Opened limit (t.apply op) := by
  cases effect_apply hr.rooted op with
  | touch htouch hstop hsettings hrecord =>
    exact h.touch hr.rooted htouch hstop hsettings (hrecord hop)
  | start _ _ hq hs _ htree hstop hsettings hrecord =>
    exact h.start hr hq hs hrecord htree hstop hsettings
  | finishSegment _ _ _ _ hends => simp [hop] at hends
  | finish hends =>
    subst hends
    cases hop

theorem run (h : Opened limit t) (hr : Reckoned t) {ops : List Operation}
    (hops : ∀ op ∈ ops, op.opens = true) : Opened limit (t.run ops) := by
  induction ops generalizing t with
  | nil => exact h
  | cons op ops ih =>
    exact ih (h.apply hr (hops op List.mem_cons_self)) (hr.apply op)
      fun op' hop' => hops op' (List.mem_cons_of_mem op hop')

/-- Below the limit no segment records on finish, so none has a result before the transaction ends. -/
theorem ending (h : Opened limit t) (hr : Reckoned t) (hsize : t.tree.size ≤ limit)
    (stop : ℕ → Time) : SegmentTree.Ending stop t.tree t.tree where
  rooted := hr.rooted
  accounts := hr.accounts
  sideBySide := h.sideBySide
  later := SegmentTree.Later.refl t.tree
  size := rfl
  pending p s hs := by
    constructor
    · by_contra hz
      simpa [hr.results.ended hs (by simpa using hz)] using h.running p s hs
    · intro _
      by_contra hrec
      exact absurd (lt_size_of_get? hs) (not_lt.mpr (hsize.trans (h.recording hs (by simpa using hrec))))
  stopped {i s e} hs he := by simpa [Segment.isFinished_of_stop he] using h.running i s hs

end Opened

def endings (stop : ℕ → Time) (frames : ℕ → List String) (ids : List ℕ) : List Operation :=
  ids.map fun i => .finishSegment i (stop i) (frames i)

theorem apply_finishSegment (t : Transaction) (id : ℕ) (stop : Time) (frames : List String) :
    t.apply (.finishSegment id stop frames) =
      { t with tree := t.tree.finish (t.backtrace frames) id stop } := by
  simp only [apply,finishSegment,segment_eq]
  cases hs : t.tree.get? id with
  | none => simp only [SegmentTree.finish,hs]; rfl
  | some s => rfl

theorem ending_run {t₀ : SegmentTree} (h : SegmentTree.Ending stop t₀ t.tree)
    (frames : ℕ → List String) (ids : List ℕ) :
    SegmentTree.Ending stop t₀ (t.run (endings stop frames ids)).tree ∧
      (t.run (endings stop frames ids)).stop = t.stop ∧
      ∀ {i s}, (t.run (endings stop frames ids)).tree.get? i = some s →
        (i ∈ ids ∨ ∃ v, t.tree.get? i = some v ∧ v.isFinished = true) → s.isFinished = true := by
  induction ids generalizing t with
  | nil =>
    refine ⟨h,rfl,fun {i s} hs hor => ?_⟩
    rcases hor with hi | ⟨v,hv,hf⟩
    · simp at hi
    · exact get?_inj hv hs ▸ hf
  | cons j ids ih =>
    have hstep := apply_finishSegment t j (stop j) (frames j)
    have hnext : SegmentTree.Ending stop t₀ (t.apply (.finishSegment j (stop j) (frames j))).tree := by
      rw [hstep]
      exact h.finish _ j
    obtain ⟨hending,hstop,hended⟩ := ih hnext
    have hsize := hending.size.trans h.size.symm
    refine ⟨hending,hstop.trans (by rw [hstep]),fun {i s} hs hor => hended hs ?_⟩
    rw [hstep]
    rcases hor with hi | ⟨v,hv,hf⟩
    · rcases List.mem_cons.mp hi with rfl | hi
      · obtain ⟨w,hw⟩ := SegmentTree.exists_get? (hsize ▸ lt_size_of_get? hs)
        exact Or.inr (SegmentTree.isFinished_finish _ _ h.rooted hw)
      · exact Or.inl hi
    · obtain ⟨w,hw,hl⟩ := SegmentTree.later_finish h.rooted (t.backtrace (frames j)) j (stop j) hv
      exact Or.inr ⟨w,hw,hl.isFinished hf⟩

/-- In whatever order its segments end, a transaction ends with the results that belong to their
times. -/
theorem Opened.results_run (h : Opened limit t) (hr : Reckoned t) (hsize : t.tree.size ≤ limit)
    (hnested : (t.tree.stopAll stop).Nested) (hids : ∀ i, 0 < i → i < t.tree.size → i ∈ ids)
    (frames : ℕ → List String) (last : List String) (chance : Chance) :
    (∀ i, ((t.run (endings stop frames ids ++ [.finish (stop 0) last chance])).tree.get? i).map
        (·.exclusive) = (t.tree.get? i).map fun _ => ((t.tree.stopAll stop).own i).card) ∧
      (t.run (endings stop frames ids ++ [.finish (stop 0) last chance])).tree.totalTime =
        ∑ i ∈ Finset.range t.tree.size, ((t.tree.stopAll stop).own i).card := by
  obtain ⟨hending,hstop,hended⟩ := ending_run (h.ending hr hsize stop) frames ids
  have hresults := (hr.run (endings stop frames ids ++ [.finish (stop 0) last chance])).results
  rw [run_append] at hresults ⊢
  generalize t.run (endings stop frames ids) = u at hending hstop hended hresults ⊢
  have hopen : u.isFinished = false := by
    rw [isFinished,hstop]
    exact h.isOpen
  have htree : (u.run [.finish (stop 0) last chance]).tree = u.tree.close (u.backtrace last) (stop 0) :=
    (finish_of_open hopen (stop 0) last chance).1
  rw [htree] at hresults ⊢
  have hall : ∀ {i s}, u.tree.get? i = some s → 0 < i → s.isFinished = true := fun hs hi =>
    hended hs (Or.inl (hids _ hi (hending.size ▸ lt_size_of_get? hs)))
  have hclosed := hending.size_close hall (u.backtrace last)
  have hexclusive : ∀ i, ((u.tree.close (u.backtrace last) (stop 0)).get? i).map (·.exclusive) =
      (t.tree.get? i).map fun _ => ((t.tree.stopAll stop).own i).card := by
    intro i
    rcases Nat.lt_or_ge i t.tree.size with hi | hi
    · obtain ⟨v,hv⟩ := SegmentTree.exists_get? hi
      obtain ⟨s,hs⟩ := SegmentTree.exists_get? (hclosed.symm ▸ hi)
      rw [hs,hv,Option.map_some,Option.map_some,hending.exclusive_close hall _ hnested hs]
    · rw [SegmentTree.get?_eq_none hi,SegmentTree.get?_eq_none (hclosed.symm ▸ hi)]
      rfl
  refine ⟨hexclusive,?_⟩
  rw [hresults.total,SegmentTree.weigh_eq_sum,hclosed]
  refine Finset.sum_congr rfl fun i hi => ?_
  obtain ⟨v,hv⟩ := SegmentTree.exists_get? (Finset.mem_range.mp hi)
  rw [hexclusive i,hv,Option.map_some,Option.getD_some]

/-- When all segments have started before one of them ends, and each ends within its parent, the
exclusive times and the total do not depend on the order in which the ends are reported. -/
theorem Fresh.times_eq_of_perm (h : t.Fresh) {ops : List Operation}
    (hops : ∀ op ∈ ops, op.opens = true) (hlimit : (t.run ops).tree.size ≤ t.settings.segmentLimit)
    (hnested : ((t.run ops).tree.stopAll stop).Nested) {ids ids' : List ℕ}
    (hids : ∀ i, i ∈ ids ↔ 0 < i ∧ i < (t.run ops).tree.size) (hperm : ids.Perm ids')
    (frames frames' : ℕ → List String) (last : List String) (chance : Chance) :
    (∀ i, ((t.run (ops ++ (endings stop frames' ids' ++ [.finish (stop 0) last chance]))).tree.get? i).map
        (·.exclusive) =
      ((t.run (ops ++ (endings stop frames ids ++ [.finish (stop 0) last chance]))).tree.get? i).map
        (·.exclusive)) ∧
      (t.run (ops ++ (endings stop frames' ids' ++ [.finish (stop 0) last chance]))).tree.totalTime =
        (t.run (ops ++ (endings stop frames ids ++ [.finish (stop 0) last chance]))).tree.totalTime := by
  have hopened := h.opened.run h.reckoned hops
  have hreckoned := h.reckoned.run ops
  have hall : ∀ i, 0 < i → i < (t.run ops).tree.size → i ∈ ids := fun i hpos hi => (hids i).mpr ⟨hpos,hi⟩
  obtain ⟨hexclusive,htotal⟩ :=
    hopened.results_run hreckoned hlimit hnested hall frames last chance
  obtain ⟨hexclusive',htotal'⟩ :=
    hopened.results_run hreckoned hlimit hnested (fun i hpos hi => hperm.subset (hall i hpos hi)) frames'
      last chance
  simp only [run_append t ops]
  exact ⟨fun i => (hexclusive' i).trans (hexclusive i).symm,htotal'.trans htotal.symm⟩

/-- Two children of the root, the first with a child of its own. -/
def abreast : List Operation := [.startUnder 0 1,.startUnder 1 2,.startUnder 0 3]

def abreastStops (i : ℕ) : Time := [9,7,5,8].getD i 0

theorem times_eq_of_perm_abreast :
    (∀ i, ((plain.run (abreast ++ (endings abreastStops (fun _ => []) [1,3,2] ++
          [.finish (abreastStops 0) [] ⟨fun _ => true,0⟩]))).tree.get? i).map (·.exclusive) =
        ((plain.run (abreast ++ (endings abreastStops (fun _ => []) [2,1,3] ++
          [.finish (abreastStops 0) [] ⟨fun _ => true,0⟩]))).tree.get? i).map (·.exclusive)) ∧
      (plain.run (abreast ++ (endings abreastStops (fun _ => []) [1,3,2] ++
          [.finish (abreastStops 0) [] ⟨fun _ => true,0⟩]))).tree.totalTime =
        (plain.run (abreast ++ (endings abreastStops (fun _ => []) [2,1,3] ++
          [.finish (abreastStops 0) [] ⟨fun _ => true,0⟩]))).tree.totalTime := by
  have hsize : (plain.run abreast).tree.size = 4 := by decide +kernel
  have hnested : ((plain.run abreast).tree.stopAll abreastStops).Nested :=
    SegmentTree.nested_of_allFinished (SegmentTree.allFinished_stopAll _ _) (by decide +kernel)
  have hids : ∀ i, i ∈ [2,1,3] ↔ 0 < i ∧ i < (plain.run abreast).tree.size := by
    intro i
    rw [hsize]
    simp only [List.mem_cons,List.not_mem_nil,or_false]
    omega
  exact Fresh.times_eq_of_perm plain_fresh (by decide) (by decide +kernel) hnested hids (by decide)
    (fun _ => []) (fun _ => []) [] ⟨fun _ => true,0⟩

end TraceEngine.Transaction
