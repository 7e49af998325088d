import TraceEngine.Proofs.Segment.Recording

/-! What the end of a segment leaves alone: of the tree all but its segments and the mark for late
ends, and of the segments all that do not stand on the way up. -/
namespace TraceEngine.SegmentTree

variable {t t' : SegmentTree} {now : Time} {i j p : ℕ} {q s s' : Segment}

theorem recordDescendant_rest (t : SegmentTree) (r : TimeRange) (c a : ℕ) :
    ∃ l, t.recordDescendant r c a = { t with segments := l } := by
  unfold recordDescendant
  simp only
  split
  · split <;> exact ⟨_,rfl⟩
  · exact ⟨_,rfl⟩

theorem descendantComplete_rest (t : SegmentTree) (r : TimeRange) (c a : ℕ) :
    ∃ l, t.descendantComplete r c a = { t with segments := l } := by
  induction a using Nat.strong_induction_on generalizing t c with
  | _ a ih =>
    obtain ⟨l,hl⟩ := recordDescendant_rest t r c a
    rw [descendantComplete]
    split
    · split
      · split
        · rename_i hlt
          obtain ⟨l',hl'⟩ := ih _ hlt.1 (t.recordDescendant r c a) a
          exact ⟨l',by rw [hl',hl]⟩
        · exact ⟨l,hl⟩
      · exact ⟨l,hl⟩
    · exact ⟨l,hl⟩

theorem countChild_rest (t : SegmentTree) (p c : ℕ) (r : TimeRange) :
    ∃ l, t.countChild p c r = { t with segments := l } := by
  unfold countChild
  split
  · exact ⟨_,rfl⟩
  · simp only
    split <;> exact ⟨_,rfl⟩

/-- The parent of a segment has ended. -/
def parentEnded (t : SegmentTree) (s : Segment) : Bool := (s.parent.bind t.get?).any (·.isFinished)

theorem parentEnded_eq_false : t.parentEnded s = false ↔
    ∀ p q, s.parent = some p → t.get? p = some q → q.isFinished = false := by
  rw [parentEnded,Option.any_eq_false]
  simp only [Option.bind_eq_some_iff]
  exact ⟨fun h p q hp hq => h q ⟨p,hp,hq⟩,fun h q ⟨p,hp,hq⟩ => h p q hp hq⟩

theorem countUp_rest (ht : t.Rooted) (hs : t.get? i = some s) (hp : s'.parent = s.parent) :
    ∃ l, t.countUp i s' = { t with segments := l, isAsync := t.isAsync || t.parentEnded s } := by
  rw [parentEnded,← hp]
  cases hps : s'.parent with
  | none => exact ⟨_,by simp only [countUp,hps,Option.bind_none,Option.any_none,Bool.or_false]; rfl⟩
  | some p =>
    obtain ⟨q,hq⟩ := ht.exists_parent hs (hp ▸ hps)
    have hq' : (t.modify i fun _ => s').get? p = some q := by
      rw [get?_modify,if_neg (ht.parent_lt hs (hp ▸ hps)).ne',hq]
    obtain ⟨l,hl⟩ := countChild_rest (t.modify i fun _ => s') p i s'.timeRange
    simp only [countUp,hps,childComplete_of_get? hq',Option.bind_some,hq,Option.any_some]
    cases hf : q.isFinished with
    | false => exact ⟨l,by rw [if_neg (by simp),hl,Bool.or_false]; rfl⟩
    | true =>
      simp only [if_true,Bool.or_true]
      split
      · rename_i next _
        obtain ⟨l',hl'⟩ := descendantComplete_rest
          { (t.modify i fun _ => s').countChild p i s'.timeRange with isAsync := true } s'.timeRange p next
        exact ⟨l',by rw [hl',hl]; rfl⟩
      · exact ⟨l,by rw [hl]; rfl⟩

theorem isAsync_start (t : SegmentTree) (s : Segment) (p : ℕ) (b : Bool) :
    (t.start s p b).isAsync = (t.isAsync || ((t.start s p b).get? p).any (·.concurrentChildren)) := rfl

theorem current_start (t : SegmentTree) (s : Segment) (p : ℕ) (becomesCurrent : Bool) :
    (t.start s p becomesCurrent).current = if becomesCurrent then t.size else t.current := rfl

theorem finalize_eq (hs : t.get? i = some s) (hn : s.finalized = false) :
    ∃ ps, t.finalize i =
      { t.modify i fun _ => { s.recordExclusive with parameters := ps } with
        totalTime := t.totalTime+s.exclusiveTime
        metrics := t.metrics ++ if s.recordMetrics then s.recordExclusive.metricRecords else [] } := by
  simp only [finalize,hs,hn,Bool.false_eq_true,if_false]
  split
  · exact ⟨_,rfl⟩
  · exact ⟨s.parameters,rfl⟩

theorem finalize_rest (t : SegmentTree) (i : ℕ) :
    (t.finalize i).isAsync = t.isAsync ∧ (t.finalize i).current = t.current := by
  rcases t.finalize_cases i with he | ⟨s,hs,hn⟩
  · rw [he]
    exact ⟨rfl,rfl⟩
  · obtain ⟨ps,he⟩ := finalize_eq hs hn
    rw [he]
    exact ⟨rfl,rfl⟩

/-- The end of a segment shows whether its parent had ended before. When the current segment ends its
parent takes its place. -/
theorem finish_rest (b : Backtrace) (now : Time) (ht : t.Rooted) (hs : t.get? i = some s)
    (hn : s.isFinished = false) :
    (t.finish b i now).isAsync = (t.isAsync || t.parentEnded s) ∧
      (t.finish b i now).current = if t.current = i then s.parent.getD 0 else t.current := by
  obtain ⟨s',t',halike,-,ht',he⟩ := finish_of_get? (b := b) hs hn now
  have hpar : s'.parent = s.parent := halike.parent
  obtain ⟨l,hl⟩ := countUp_rest ht hs hpar
  have hasync : t'.isAsync = (t.isAsync || t.parentEnded s) := by rw [ht',hl]
  have hcurrent : t'.current = if t.current = i then s.parent.getD 0 else t.current := by
    rw [ht',hl,hpar]
  rw [he]
  split
  · rw [(finalize_rest t' i).1,(finalize_rest t' i).2]
    exact ⟨hasync,hcurrent⟩
  · exact ⟨hasync,hcurrent⟩

theorem get?_descendantComplete_of_notMem (ht : t.Rooted) {d c a : ℕ} {sd sc : Segment}
    (h : t.Rising d c a sd sc) (hjc : j ≠ c) (hja : j ≠ a) (hj : j ∉ t.ancestors a) :
    (t.descendantComplete sd.timeRange c a).get? j = t.get? j := by
  induction a using Nat.strong_induction_on generalizing t c sc with
  | _ a ih =>
    obtain ⟨sa,ha⟩ := ht.exists_parent h.child h.parent
    have hsame : (t.recordDescendant sd.timeRange c a).get? j = t.get? j := by
      rw [get?_recordDescendant h.child ha (ht.parent_lt h.child h.parent).ne,if_neg hjc,if_neg hja]
    rcases descendantComplete_step ht h.child ha h.parent sd.timeRange with ⟨he,-⟩ | ⟨next,hn,hend,he⟩
    · rw [he,hsame]
    · have htimes := (h.quiet ha).sameTimes ht
      rw [ht.ancestors_eq ha hn,List.mem_cons,not_or] at hj
      rw [he,ih next (ht.parent_lt ha hn) (htimes.rooted ht)
        (h.next ht ha hn (Segment.isFinished_of_endedBefore hend)) hja hj.1
        (by rw [htimes.ancestors]; exact hj.2),hsame]

theorem get?_countUp_of_notMem (ht : t.Rooted) (hs : t.get? i = some s) (hn : s.isFinished = false)
    (hs' : (s.stopAt now).Alike s') (hji : j ≠ i) (hj : j ∉ t.ancestors i) :
    (t.countUp i s').get? j = t.get? j := by
  cases hp : s'.parent with
  | none =>
    simp only [countUp,hp]
    rw [get?_modify,if_neg hji.symm]
  | some p =>
    have hps : s.parent = some p := hs'.parent ▸ hp
    rw [ht.ancestors_eq hs hps,List.mem_cons,not_or] at hj
    obtain ⟨q,hq⟩ := ht.exists_parent hs hps
    have hlt := ht.parent_lt hs hps
    have hq' : (t.modify i fun _ => s').get? p = some q := by
      rw [get?_modify,if_neg hlt.ne',hq]
    have hend : (t.endSegment i s').get? j = t.get? j := by
      rw [get?_endSegment hs hp hq hlt.ne,if_neg hji,if_neg hj.1]
    simp only [countUp,hp,childComplete_of_get? hq']
    rw [← endSegment_of_parent hp]
    split
    · rename_i hf
      split
      · rename_i next hnext
        have hrising := rising_endSegment ht hs hn hs' hp hq hf hnext
        have hend' := ht.endSegment hs hn hs'
        have hl : t.Later (t.endSegment i s') := later_endSegment ht hs hn hs'
        have hasync : Quiet (t.endSegment i s') { t.endSegment i s' with isAsync := true } :=
          .relabel rfl rfl
        have htimes := hasync.sameTimes hend'
        rw [ht.ancestors_eq hq hnext,List.mem_cons,not_or] at hj
        refine (get?_descendantComplete_of_notMem (htimes.rooted hend') hrising hj.1 hj.2.1 ?_).trans hend
        rw [htimes.ancestors,hl.ancestors ((ht.parent_lt hq hnext).trans (lt_size_of_get? hq))]
        exact hj.2.2
      · exact hend
    · exact hend

/-- As long as its parent runs, the end of a segment goes no further up. -/
theorem countUp_eq_endSegment (ht : t.Rooted) (hs : t.get? i = some s) (hp : s'.parent = s.parent)
    (hrun : t.parentEnded s = false) : t.countUp i s' = t.endSegment i s' := by
  cases hps : s'.parent with
  | none => simp only [countUp,endSegment,hps]
  | some p =>
    obtain ⟨q,hq⟩ := ht.exists_parent hs (hp ▸ hps)
    have hq' : (t.modify i fun _ => s').get? p = some q := by
      rw [get?_modify,if_neg (ht.parent_lt hs (hp ▸ hps)).ne',hq]
    have hf := parentEnded_eq_false.mp hrun p q (hp ▸ hps) hq
    simp only [countUp,hps,childComplete_of_get? hq',hf,Bool.false_eq_true,if_false]
    rw [endSegment_of_parent hps]

end TraceEngine.SegmentTree
