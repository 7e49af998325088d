import TraceEngine.Proofs.Segment.Path
import TraceEngine.Segment.Checked

/-! Checked arithmetic makes no difference where it has a result: whatever the tree, each step then comes to the
same as the step without checks. -/
namespace TraceEngine

/-- A computation that has no other result than the given one. -/
def Confirms {α : Type} (x : Option α) (a : α) : Prop := ∀ b, x = some b → b = a

section

variable {α β : Type} {x : Option α} {a : α} {b : β}

theorem confirms_some (a : α) : Confirms (some a) a := fun _ h => (Option.some.inj h).symm

theorem Confirms.bind {f : α → Option β} (hx : Confirms x a) (hf : Confirms (f a) b) : Confirms (x >>= f) b := by
  intro c hc
  obtain ⟨a',ha',hc⟩ := Option.bind_eq_some_iff.mp hc
  rw [hx a' ha'] at hc
  exact hf c hc

theorem confirms_foldlM {f : α → β → Option α} {g : α → β → α} (h : ∀ a b, Confirms (f a b) (g a b))
    (l : List β) (a : α) : Confirms (l.foldlM f a) (l.foldl g a) := by
  induction l generalizing a with
  | nil => exact confirms_some a
  | cons b l ih =>
    rw [List.foldlM_cons]
    exact (h a b).bind (ih (g a b))

end

theorem Time.confirms_checkedAdd (a b : Time) : Confirms (checkedAdd a b) (a+b) := by
  intro c hc
  exact (Option.some.inj (Option.ite_none_right_eq_some.mp hc).2).symm

theorem Time.confirms_checkedSub (a b : ℕ) : Confirms (checkedSub a b) (a-b) := by
  intro c hc
  exact (Option.some.inj (Option.ite_none_right_eq_some.mp hc).2).symm

theorem Cutoff.confirms_sub (cut : Cutoff) (a b : ℕ) : Confirms (cut.sub a b) (a-b) := by
  cases cut with
  | allowed => exact confirms_some _
  | refused => exact Time.confirms_checkedSub a b

theorem Coverage.confirms_checkedOverlap (c : Coverage) (r : TimeRange) :
    Confirms (c.checkedOverlap r) (c.overlap r) := by
  have hsum : ∀ (l : List TimeRange) (n : ℕ),
      l.foldl (fun sum s => sum+r.shared s) n = n+l.foldr (r.shared · + ·) 0 := by
    intro l
    induction l with
    | nil => exact fun n => rfl
    | cons s l ih => exact fun n => (ih _).trans (Nat.add_assoc _ _ _)
  have hfold := confirms_foldlM (fun sum s => Time.confirms_checkedAdd sum (r.shared s))
    ((c.dropWhile fun s => s.stop ≤ r.start).takeWhile fun s => s.start < r.stop) 0
  rw [hsum,Nat.zero_add] at hfold
  exact hfold

namespace Segment

theorem confirms_checkedStopAt (s : Segment) (t : Time) : Confirms (s.checkedStopAt t) (s.stopAt t) :=
  (Time.confirms_checkedSub _ _).bind (confirms_some _)

theorem confirms_checkedChildComplete (cut : Cutoff) (child : TimeRange) (s : Segment) :
    Confirms (s.checkedChildComplete cut child) (s.childComplete child) := by
  refine (cut.confirms_sub s.activeChildren 1).bind ?_
  have hcounts : ({ s with activeChildren := s.activeChildren-1 } : Segment).countsRange child =
      s.countsRange child := rfl
  simp only [childComplete,hcounts]
  cases s.countsRange child with
  | true => exact confirms_some _
  | false =>
    have hlength : Confirms child.checkedLength (child.stop-child.start) := Time.confirms_checkedSub _ _
    exact hlength.bind ((Time.confirms_checkedAdd _ _).bind (confirms_some _))

theorem confirms_checkedRecountChild (cut : Cutoff) (child : TimeRange) (s : Segment) :
    Confirms (s.checkedRecountChild cut child) (s.recountChild child) :=
  (Time.confirms_checkedSub child.stop child.start).bind ((cut.confirms_sub _ _).bind (confirms_some _))

theorem confirms_checkedRecordExclusive (s : Segment) : Confirms s.checkedRecordExclusive s.recordExclusive :=
  (s.childrenRanges.confirms_checkedOverlap s.timeRange).bind (confirms_some _)

end Segment

namespace SegmentTree

variable {t : SegmentTree} {i : ℕ} {s : Segment}

theorem modify_const {f : Segment → Segment} (hs : t.get? i = some s) :
    (t.modify i fun _ => f s) = t.modify i f := by
  simp only [modify]
  congr 1
  refine Array.ext_getElem? fun j => ?_
  rw [Array.getElem?_modify,Array.getElem?_modify]
  split
  · rename_i hij
    subst hij
    rw [show t.segments[i]? = some s from hs]
    rfl
  · rfl

theorem modify_of_none (f : Segment → Segment) (hs : t.get? i = none) : t.modify i f = t := by
  have hsame : t.segments.modify i f = t.segments := by
    refine Array.ext_getElem? fun j => ?_
    rw [Array.getElem?_modify]
    split
    · rename_i hij
      subst hij
      rw [show t.segments[i]? = none from hs]
      rfl
    · rfl
  rw [modify,hsame]

theorem confirms_checkedModify {f : Segment → Segment} {g : Segment → Option Segment}
    (hg : ∀ s, Confirms (g s) (f s)) (t : SegmentTree) (i : ℕ) : Confirms (t.checkedModify i g) (t.modify i f) := by
  cases hs : t.get? i with
  | none =>
    rw [modify_of_none f hs]
    simp only [checkedModify,hs]
    exact confirms_some t
  | some s =>
    intro u hu
    simp only [checkedModify,hs] at hu
    obtain ⟨s',hs',rfl⟩ := Option.map_eq_some_iff.mp hu
    rw [hg s s' hs',modify_const hs]

variable (cut : Cutoff)

theorem confirms_checkedRecordDescendant (t : SegmentTree) (descendant : TimeRange) (child ancestor : ℕ) :
    Confirms (t.checkedRecordDescendant cut descendant child ancestor)
      (t.recordDescendant descendant child ancestor) := by
  simp only [checkedRecordDescendant,recordDescendant]
  cases (t.modify ancestor (Segment.addChildRange descendant)).get? child with
  | none => exact confirms_some _
  | some c =>
    simp only
    split
    · exact confirms_some _
    · exact (confirms_checkedModify (Segment.confirms_checkedRecountChild cut c.timeRange) _ _).bind (confirms_some _)

theorem confirms_checkedDescendantComplete (t : SegmentTree) (descendant : TimeRange) (child ancestor : ℕ) :
    Confirms (t.checkedDescendantComplete cut descendant child ancestor)
      (t.descendantComplete descendant child ancestor) := by
  induction ancestor using Nat.strong_induction_on generalizing t child with
  | _ ancestor ih =>
    rw [checkedDescendantComplete,descendantComplete]
    refine (confirms_checkedRecordDescendant cut t descendant child ancestor).bind ?_
    cases (t.recordDescendant descendant child ancestor).get? ancestor with
    | none => exact confirms_some _
    | some s =>
      simp only
      cases s.parent with
      | none => exact confirms_some _
      | some next =>
        simp only
        by_cases hgo : next < ancestor ∧ s.endedBefore descendant.stop = true
        · rw [dif_pos hgo,dif_pos hgo]
          exact ih next hgo.1 _ _
        · rw [dif_neg hgo,dif_neg hgo]
          exact confirms_some _

theorem confirms_checkedChildComplete (t : SegmentTree) (parent child : ℕ) (range : TimeRange) :
    Confirms (t.checkedChildComplete cut parent child range) (t.childComplete parent child range) := by
  simp only [checkedChildComplete,childComplete]
  cases t.get? parent with
  | none => exact confirms_some t
  | some p =>
    refine (confirms_checkedModify (Segment.confirms_checkedChildComplete cut range) t parent).bind ?_
    simp only
    cases p.isFinished with
    | false => exact confirms_some _
    | true =>
      cases p.parent with
      | none => exact confirms_some _
      | some next => exact confirms_checkedDescendantComplete cut _ range parent next

theorem confirms_checkedCountUp (t : SegmentTree) (i : ℕ) (s : Segment) :
    Confirms (t.checkedCountUp cut i s) (t.countUp i s) := by
  simp only [checkedCountUp,countUp]
  cases s.parent with
  | none => exact confirms_some _
  | some p => exact confirms_checkedChildComplete cut _ p i s.timeRange

theorem confirms_checkedFinalize (t : SegmentTree) (i : ℕ) : Confirms (t.checkedFinalize i) (t.finalize i) := by
  simp only [checkedFinalize,finalize]
  cases t.get? i with
  | none => exact confirms_some t
  | some s =>
    simp only
    split
    · exact confirms_some t
    · refine s.confirms_checkedRecordExclusive.bind ?_
      exact (Time.confirms_checkedAdd t.totalTime s.recordExclusive.exclusive).bind (confirms_some _)

theorem confirms_checkedFinish (t : SegmentTree) (b : Backtrace) (i : ℕ) (stop : Time) :
    Confirms (t.checkedFinish cut b i stop) (t.finish b i stop) := by
  simp only [checkedFinish,finish]
  cases t.get? i with
  | none => exact confirms_some t
  | some s =>
    simp only
    split
    · exact confirms_some t
    · refine (s.confirms_checkedStopAt stop).bind ?_
      generalize (if i = 0 then (s.stopAt stop).addKindParameters
        else addBacktrace b (s.stopAt stop).addKindParameters) = s'
      refine (confirms_checkedCountUp cut t i s').bind ?_
      cases s'.recordOnFinish with
      | false => exact confirms_some _
      | true => exact confirms_checkedFinalize _ i

theorem confirms_checkedClose (t : SegmentTree) (b : Backtrace) (stop : Time) :
    Confirms (t.checkedClose cut b stop) (t.close b stop) :=
  (confirms_foldlM (fun u j => confirms_checkedFinish cut u b j stop) t.unfinished t).bind
    ((confirms_checkedFinish cut _ b 0 stop).bind (confirms_foldlM confirms_checkedFinalize _ _))

end SegmentTree

end TraceEngine
