import TraceEngine.Proofs.Segment.Closing

/-! What the end of a segment leaves as it was. Ends add times, accounts, results and parameters; the
rest of each segment is its outline, and no end changes the outline of any. -/
namespace TraceEngine.SegmentTree

variable {t t' : SegmentTree} {b : Backtrace} {i : ℕ} {s s' : Segment}

theorem getElem?_map_segments {α : Type} (g : Segment → α) (t : SegmentTree) (i : ℕ) :
    (t.segments.toList.map g)[i]? = (t.get? i).map g := by
  simp [get?]

/-- A segment that changes but shows the same leaves what all of them show. -/
theorem map_segments_modify {α : Type} {g : Segment → α} {f : Segment → Segment}
    (hf : ∀ s, t.get? i = some s → g (f s) = g s) :
    (t.modify i f).segments.toList.map g = t.segments.toList.map g := by
  refine List.ext_getElem? fun j => ?_
  rw [getElem?_map_segments,getElem?_map_segments,get?_modify]
  split
  · rename_i hj
    subst hj
    cases hs : t.get? i with
    | none => rfl
    | some s => exact congrArg some (hf s hs)
  · rfl

/-- The outlines of all segments, in the order in which they started. -/
def outline (t : SegmentTree) : List Segment := t.segments.toList.map (·.outline)

theorem length_outline (t : SegmentTree) : t.outline.length = t.size := by
  simp [outline,size]

theorem size_of_outline (h : t'.outline = t.outline) : t'.size = t.size := by
  rw [← length_outline,h,length_outline]

theorem outline_modify {f : Segment → Segment}
    (hf : ∀ s, t.get? i = some s → (f s).outline = s.outline) : (t.modify i f).outline = t.outline :=
  map_segments_modify hf

/-- Trees with the same outlines show the same of all that outlines keep. -/
theorem map_segments_of_outline {α : Type} {g : Segment → α} (hg : ∀ s, g s.outline = g s)
    (h : t'.outline = t.outline) : t'.segments.toList.map g = t.segments.toList.map g := by
  have hmap := congrArg (List.map g) h
  simpa only [outline,List.map_map,Function.comp_def,hg] using hmap

theorem map_get?_of_outline {α : Type} {g : Segment → α} (hg : ∀ s, g s.outline = g s)
    (h : t'.outline = t.outline) (j : ℕ) : (t'.get? j).map g = (t.get? j).map g := by
  rw [← getElem?_map_segments,← getElem?_map_segments,map_segments_of_outline hg h]

theorem outline_recordDescendant (t : SegmentTree) (r : TimeRange) (c a : ℕ) :
    (t.recordDescendant r c a).outline = t.outline := by
  have h : (t.modify a (Segment.addChildRange r)).outline = t.outline := outline_modify fun _ _ => rfl
  unfold recordDescendant
  simp only
  split
  · rename_i child _
    split
    · exact h
    · rw [outline_modify (f := Segment.markRangeRecorded) fun _ _ => rfl,
        outline_modify (f := Segment.recountChild child.timeRange) fun _ _ => rfl,h]
  · exact h

theorem outline_descendantComplete (t : SegmentTree) (r : TimeRange) (c a : ℕ) :
    (t.descendantComplete r c a).outline = t.outline := by
  induction a using Nat.strong_induction_on generalizing t c with
  | _ a ih =>
    have h := outline_recordDescendant t r c a
    rw [descendantComplete]
    split
    · split
      · split
        · rename_i hlt
          rw [ih _ hlt.1,h]
        · exact h
      · exact h
    · exact h

theorem outline_childComplete (t : SegmentTree) (p c : ℕ) (r : TimeRange) :
    (t.childComplete p c r).outline = t.outline := by
  cases hq : t.get? p with
  | none => simp only [childComplete,hq]
  | some q =>
    have h : (t.countChild p c r).outline = t.outline := by
      have hp : (t.modify p (Segment.childComplete r)).outline = t.outline :=
        outline_modify fun s _ => by rw [Segment.childComplete_eq]; rfl
      simp only [countChild,hq]
      split
      · rw [outline_modify (f := Segment.markRangeRecorded) fun _ _ => rfl,hp]
      · exact hp
    rw [childComplete_of_get? hq]
    split
    · split
      · rw [outline_descendantComplete]
        exact h
      · exact h
    · exact h

theorem outline_countUp (hs : t.get? i = some s) (hs' : s'.outline = s.outline) :
    (t.countUp i s').outline = t.outline := by
  have h : (t.modify i fun _ => s').outline = t.outline :=
    outline_modify fun u hu => by rw [hs',get?_inj hs hu]
  unfold countUp
  split
  · rw [outline_childComplete,h]
  · exact h

theorem outline_finalize (t : SegmentTree) (i : ℕ) : (t.finalize i).outline = t.outline := by
  rcases t.finalize_cases i with he | ⟨s,hs,hn⟩
  · rw [he]
  · simp only [finalize,hs,hn,Bool.false_eq_true,if_false]
    refine outline_modify (i := i) fun u hu => ?_
    cases get?_inj hs hu
    split <;> rfl

theorem outline_finish (t : SegmentTree) (b : Backtrace) (i : ℕ) (now : Time) :
    (t.finish b i now).outline = t.outline := by
  rcases t.finish_cases b i now with he | ⟨s,hs,hn⟩
  · rw [he]
  · obtain ⟨s',t',-,hs',ht',he⟩ := finish_of_get? (b := b) hs hn now
    have hcount : t'.outline = t.outline := by
      rw [ht']
      exact outline_countUp hs hs'
    rw [he]
    split
    · exact (outline_finalize t' i).trans hcount
    · exact hcount

theorem outline_close (t : SegmentTree) (b : Backtrace) (now : Time) :
    (t.close b now).outline = t.outline := by
  have h : (t.finishAll b now).outline = t.outline :=
    finishAll_induction (P := fun u => u.outline = t.outline) rfl fun i hu => (outline_finish _ b i now).trans hu
  rw [close_eq]
  exact List.foldlRecOn (motive := fun u => u.outline = t.outline) _ _ h
    fun u hu i _ => (outline_finalize u i).trans hu

end TraceEngine.SegmentTree
