import TraceEngine.Proofs.Segment.Finalization
import TraceEngine.Proofs.Transaction.Ended

/-! The metrics and the total of a transaction, for any operations and any times: each segment enters
them once, when it gets its result, and once the transaction has ended each has entered them. -/
namespace TraceEngine.Transaction

open SegmentTree (Step)

variable {t : Transaction} {op : Operation}

/-- The states through which an operation leads the tree. -/
def trail (t : Transaction) : Operation → List SegmentTree
  | .finish stop frames chance =>
    if t.isFinished then [(t.apply (.finish stop frames chance)).tree]
    else t.tree.closing (t.backtrace frames) stop
  | op => [(t.apply op).tree]

/-- The segments that get results in a run, in the order in which they do, each as it is then. -/
def finalizations (t : Transaction) : List Operation → List (ℕ × Segment)
  | [] => []
  | op::ops => t.tree.finalizations (t.trail op) ++ (t.apply op).finalizations ops

theorem getLastD_trail (t : Transaction) (op : Operation) :
    (t.trail op).getLastD t.tree = (t.apply op).tree := by
  cases op with
  | finish stop frames chance =>
    cases hopen : t.isFinished with
    | true => simp [trail,hopen]
    | false =>
      rw [trail,if_neg (by simp [hopen]),t.tree.getLastD_closing]
      exact (finish_of_open hopen stop frames chance).1.symm
  | _ => rfl

theorem isChain_trail (h : Reckoned t) (op : Operation) : List.IsChain Step (t.tree::t.trail op) := by
  have hresults := (h.apply op).results
  by_cases hclose : t.isFinished = false ∧ ∃ stop frames chance, op = .finish stop frames chance
  · obtain ⟨hopen,stop,frames,chance,rfl⟩ := hclose
    rw [trail,if_neg (by simp [hopen])]
    exact SegmentTree.isChain_closing h.rooted h.results _ _
  · have htrail : t.trail op = [(t.apply op).tree] := by
      cases op with
      | finish stop frames chance =>
        exact if_pos (by_contra fun hf => hclose ⟨by simpa using hf,stop,frames,chance,rfl⟩)
      | _ => rfl
    rw [htrail]
    refine List.isChain_pair.mpr ?_
    cases effect_apply h.rooted op with
    | touch ht _ => exact (SegmentTree.awaiting_touch h.rooted ht).step hresults
    | start _ _ hq hs _ htree _ =>
      rw [htree] at hresults ⊢
      exact (SegmentTree.awaiting_start h.rooted _ hq hs).step hresults
    | finishSegment _ _ htree _ =>
      rw [htree] at hresults ⊢
      exact SegmentTree.step_finish h.rooted hresults
    | finish hop hopen _ _ => exact absurd ⟨hopen,_,_,_,hop⟩ hclose

theorem Reckoned.recorded_run (h : Reckoned t) (ops : List Operation) :
    t.tree.Recorded (t.run ops).tree (t.finalizations ops) := by
  induction ops generalizing t with
  | nil => exact SegmentTree.Recorded.refl t.tree
  | cons op ops ih =>
    have hfirst := SegmentTree.recorded_finalizations (isChain_trail h op)
    rw [getLastD_trail] at hfirst
    exact hfirst.trans (ih (h.apply op))

theorem Fresh.hasResult_eq_false (h : t.Fresh) (i : ℕ) : t.tree.hasResult i = false := by
  rw [SegmentTree.hasResult,Option.any_eq_false]
  exact fun s hs => by simp [h.finalized_eq_false hs]

theorem Fresh.metrics_eq_nil (h : t.Fresh) : t.tree.metrics = [] := by
  obtain ⟨name,guid,rootGuid,traceId,start,settings,decider,rfl⟩ := h
  rfl

theorem Fresh.bounded_run (h : t.Fresh) (ops : List Operation) : (t.run ops).tree.Bounded := by
  refine (h.reckoned.run_induction (P := fun t => t.tree.Bounded) (fun op hr hb => ?_)
    (fun i s hs hz => ?_) ops).2
  · exact hb.changes hr.rooted hr.results (hr.changes op 0)
  · simp [h.finalized_eq_false hs] at hz

/-- What a segment hands out as metrics: a scoped record of its own name if it is to have one, then
unscoped ones of its name, of the names that sum up its kind and of those that were asked for. Each has
the duration and the exclusive time of the segment. -/
structure Batch (s : Segment) (records : List MetricRecord) : Prop where
  names : records.map (fun r => (r.name,r.isScoped)) =
    (if s.recordScoped then [(s.name,true)] else []) ++
      (s.name,false)::(s.kind.rollups ++ s.unscopedMetrics).map (·,false)
  times : ∀ r ∈ records, r.duration = s.duration ∧ r.exclusive = s.exclusive
  nonempty : records ≠ []

theorem batch_metricRecords (s : Segment) : Batch s s.metricRecords where
  names := by cases hr : s.recordScoped <;> simp [Segment.metricRecords,hr,Function.comp_def]
  times r hr := by
    simp only [Segment.metricRecords,List.mem_append,List.mem_map] at hr
    rcases hr with hr | ⟨name,-,rfl⟩
    · obtain ⟨-,hr⟩ := List.mem_ite_nil_right.mp hr
      rw [List.mem_singleton.mp hr]
      exact ⟨rfl,rfl⟩
    · exact ⟨rfl,rfl⟩
  nonempty := List.append_ne_nil_of_right_ne_nil _ (List.cons_ne_nil _ _)

/-- The total and the metrics at the end of a run, and which segments have entered them. -/
structure Totals (t : Transaction) (ops : List Operation) : Prop where
  totalTime : (t.run ops).tree.totalTime =
    (((t.run ops).tree.segments.toList.filter (·.finalized)).map (·.exclusive)).sum
  exclusive_le : ∀ {i s}, (t.run ops).tree.get? i = some s → s.finalized = true → s.exclusive ≤ s.duration
  metrics : ∃ batches, List.Forall₂ (fun e batch => Batch e.2 batch)
      ((t.finalizations ops).filter (·.2.recordMetrics)) batches ∧
    (t.run ops).tree.metrics = batches.flatten
  once : ((t.finalizations ops).map Prod.fst).Nodup
  mem_finalizations : ∀ i, i ∈ (t.finalizations ops).map Prod.fst ↔
    ∃ s, (t.run ops).tree.get? i = some s ∧ s.finalized = true
  kept : ∀ e ∈ t.finalizations ops, ∃ s, (t.run ops).tree.get? e.1 = some s ∧
    s.exclusive = e.2.exclusive ∧ s.duration = e.2.duration
  ended : ∀ stop frames chance i s,
    (t.run (ops ++ [.finish stop frames chance])).tree.get? i = some s → s.finalized = true

/-- In every reachable state, for any operations and times: the total is the sum of the exclusive times
of the segments that have results, and none exceeds the duration of its segment. The metrics are made
of the batches of the segments that got results, in the order in which they did, each once, unless it
was not to record metrics then. After the end of a transaction these are all its segments. -/
theorem Fresh.totals (h : t.Fresh) (ops : List Operation) : Totals t ops := by
  have hreckoned := h.reckoned.run ops
  have hrecorded := h.reckoned.recorded_run ops
  have hresult : ∀ i, (t.run ops).tree.hasResult i = true ↔
      i ∈ (t.finalizations ops).map Prod.fst := by
    intro i
    rw [hrecorded.hasResult,h.hasResult_eq_false,Bool.false_eq_true,false_or]
  refine ⟨hreckoned.results.totalTime_eq,fun hs => h.bounded_run ops _ _ hs,?metrics,hrecorded.nodup,
    fun i => ?mem,fun e he => ?kept,fun stop frames chance i s hs => ?ended⟩
  case metrics =>
    refine ⟨((t.finalizations ops).filter (·.2.recordMetrics)).map (·.2.metricRecords),?_,?_⟩
    · rw [List.forall₂_map_right_iff]
      exact List.forall₂_same.mpr fun e _ => batch_metricRecords e.2
    · rw [hrecorded.metrics,h.metrics_eq_nil,List.nil_append,SegmentTree.flatMap_batch,List.flatMap_def]
  case mem => rw [← hresult,SegmentTree.hasResult_eq_true]
  case kept =>
    obtain ⟨s,hs,hl,hz,hf⟩ := hrecorded.kept he
    refine ⟨s,hs,(hl.finalized hz).2,?_⟩
    rw [Segment.duration,Segment.timeRange_of_times (hl.times_eq hf),Segment.duration]
  case ended =>
    have hf := isFinished_run_finish hreckoned.rooted stop frames chance
    exact (h.reckoned.run _).ended hf i s hs

/-- One child gets its result when it ends, all other segments get theirs with the transaction. -/
def earlyResult : List Operation :=
  [.startUnder 0 1,.changeSegment 1 { recordOnFinish := some true },.startUnder 0 2,.stopAt 1 3]

theorem totals_earlyResult : Totals plain earlyResult ∧
    (plain.run earlyResult).tree.metrics = [⟨"call",true,2,2⟩,⟨"call",false,2,2⟩] :=
  ⟨Fresh.totals plain_fresh earlyResult,by decide +kernel⟩

example : (plain.finalizations (earlyResult ++ [.finish 4 [] ⟨fun _ => true,0⟩])).map Prod.fst =
    [1,0,2] := by decide +kernel

end TraceEngine.Transaction
