import TraceEngine.Proofs.Segment.Checked
import TraceEngine.Proofs.Transaction.Accounts
import TraceEngine.Proofs.Transaction.Finalization
import TraceEngine.Tracer

/-! Runs of a transaction with checked arithmetic. A run that gets through is the run without checks. Where the longest
duration has room for the latest time as often as there are segments, every run does: nothing overflows, and nothing is
cut off at zero that should not be. -/
namespace TraceEngine.Transaction

variable {t : Transaction} {op : Operation} {T : Time}

/-- Only the ends of segments need arithmetic. -/
def checkedApply (cut : Cutoff) (t : Transaction) : Operation → Option Transaction
  | .finishSegment id stop frames => (t.checkedFinishSegment cut id stop frames).map t.after
  | .finish stop frames chance => (t.checkedFinish cut stop frames chance).map (·.2)
  | op => some (t.apply op)

def checkedRun (cut : Cutoff) (t : Transaction) (ops : List Operation) : Option Transaction :=
  ops.foldlM (checkedApply cut) t

theorem confirms_checkedFinish (cut : Cutoff) (t : Transaction) (stop : Time) (frames : List String)
    (chance : Chance) : Confirms (t.checkedFinish cut stop frames chance) (t.finish stop frames chance) := by
  unfold checkedFinish Transaction.finish
  cases t.isFinished with
  | true => exact confirms_some _
  | false => exact (SegmentTree.confirms_checkedClose cut t.tree _ stop).bind (confirms_some _)

/-- The end of a transaction through its tracer has no result only where the end of the transaction has none. -/
theorem confirms_checkedFinishTransaction (cut : Cutoff) (r : Tracer) (t : Transaction) (stop : Time)
    (frames : List String) (chance : Chance) :
    Confirms (r.checkedFinishTransaction cut t stop frames chance) (r.finishTransaction t stop frames chance) := by
  intro d hd
  obtain ⟨u,hu,rfl⟩ := Option.map_eq_some_iff.mp hd
  exact congrArg (r.keep chance) (confirms_checkedFinish cut t stop frames chance u hu)

theorem confirms_checkedApply (cut : Cutoff) (t : Transaction) (op : Operation) :
    Confirms (t.checkedApply cut op) (t.apply op) := by
  cases op with
  | finishSegment id stop frames =>
    simp only [checkedApply,checkedFinishSegment,apply,finishSegment,segment_eq]
    cases t.tree.get? id with
    | none => exact confirms_some t
    | some s =>
      intro u hu
      simp only [Option.map_map,Option.map_eq_some_iff] at hu
      obtain ⟨tree,htree,rfl⟩ := hu
      rw [SegmentTree.confirms_checkedFinish cut _ _ _ _ tree htree]
      rfl
  | finish stop frames chance =>
    intro u hu
    obtain ⟨r,hr,rfl⟩ := Option.map_eq_some_iff.mp hu
    exact congrArg Prod.snd (confirms_checkedFinish cut t stop frames chance r hr)
  | _ => exact confirms_some _

theorem confirms_checkedRun (cut : Cutoff) (t : Transaction) (ops : List Operation) :
    Confirms (t.checkedRun cut ops) (t.run ops) :=
  confirms_foldlM (confirms_checkedApply cut) ops t

theorem checkedFinish_eq (cut : Cutoff) (h : t.tree.Regular) (stop : Time) (frames : List String)
    (chance : Chance) (hroom : (t.finish stop frames chance).2.tree.Room) :
    t.checkedFinish cut stop frames chance = some (t.finish stop frames chance) := by
  cases hopen : t.isFinished with
  | true => simp only [checkedFinish,hopen,if_true,finish_of_ended hopen]
  | false =>
    rw [(finish_of_open hopen stop frames chance).1] at hroom
    simp only [checkedFinish,Transaction.finish,hopen,Bool.false_eq_true,if_false,
      SegmentTree.checkedClose_eq cut h hroom]
    rfl

theorem checkedApply_eq (cut : Cutoff) (h : t.tree.Regular) (op : Operation) (hroom : (t.apply op).tree.Room) :
    t.checkedApply cut op = some (t.apply op) := by
  cases op with
  | finishSegment id stop frames =>
    simp only [apply,finishSegment,segment_eq] at hroom ⊢
    simp only [checkedApply,checkedFinishSegment,segment_eq]
    cases hs : t.tree.get? id with
    | none => rfl
    | some s =>
      rw [hs] at hroom
      rw [SegmentTree.checkedFinish_eq cut h hroom]
      rfl
  | finish stop frames chance => rw [checkedApply,checkedFinish_eq cut h stop frames chance hroom]; rfl
  | _ => rfl

theorem Fresh.regular (h : t.Fresh) : t.tree.Regular where
  rooted := h.rooted
  accounts := h.accounts
  results := h.reckoned.results
  bounded i s hs hz := by simp [h.finalized_eq_false hs] at hz
  ordered hs he := by simp [(h.get? hs).2.stop] at he

theorem regular_run (h : t.tree.Regular) (ops : List Operation) : (t.run ops).tree.Regular :=
  List.foldlRecOn ops apply (motive := fun t => t.tree.Regular) h
    fun _ hu op _ => hu.changes (changes_apply hu.rooted op 0)

/-- If there is room for the durations of all segments together at the end of a run, there was before. -/
theorem Fresh.checkedRun_eq_of_room (h : t.Fresh) (cut : Cutoff) {ops : List Operation}
    (hroom : (t.run ops).tree.Room) : t.checkedRun cut ops = some (t.run ops) := by
  induction ops using List.reverseRecOn with
  | nil => rfl
  | append_singleton ops op ih =>
    have hregular := regular_run h.regular ops
    have hlater : (t.run ops).tree.Later ((t.run ops).apply op).tree :=
      (changes_apply hregular.rooted op 0).later hregular.rooted
    rw [run_append] at hroom ⊢
    rw [checkedRun,List.foldlM_append]
    have hbefore : ops.foldlM (checkedApply cut) t = some (t.run ops) := ih (hroom.of_later hlater)
    rw [hbefore,Option.bind_eq_bind,Option.bind_some,List.foldlM_cons,checkedApply_eq cut hregular op hroom]
    rfl

/-- When no segment starts or ends later than `T`, and the longest duration has room for `T` as often as there are
segments, a run never fails to do its arithmetic exactly: no sum of durations overflows, no difference lies below zero,
and neither the number of children that run nor the sum of their durations is ever cut off at zero. -/
theorem Fresh.checkedRun_eq_some (h : t.Fresh) {ops : List Operation} (hfits : (t.run ops).tree.Fits T)
    (cut : Cutoff) : t.checkedRun cut ops = some (t.run ops) :=
  h.checkedRun_eq_of_room cut hfits.room

theorem checkedRun_eq_some_lateEnd :
    (plain.run (lateEnd ++ [.finish 6 [] ⟨fun _ => true,0⟩])).tree.Fits 6 ∧
      plain.checkedRun .refused (lateEnd ++ [.finish 6 [] ⟨fun _ => true,0⟩]) =
        some (plain.run (lateEnd ++ [.finish 6 [] ⟨fun _ => true,0⟩])) := by
  have hfits : (plain.run (lateEnd ++ [.finish 6 [] ⟨fun _ => true,0⟩])).tree.Fits 6 :=
    .of_all (by decide +kernel) (by decide +kernel)
  exact ⟨hfits,Fresh.checkedRun_eq_some plain_fresh hfits .refused⟩

/-- Two children that both last as long as a duration can leave no room for the sum. -/
example : (plain.checkedRun .allowed [.startUnder 0 0,.stopAt 1 Time.longest,.startUnder 0 0,
    .stopAt 2 Time.longest]).isNone = true := by
  decide +kernel

end TraceEngine.Transaction
