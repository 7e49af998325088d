import TraceEngine.Proofs.Segment.Finalization

/-! The ends of segments with every look-up of a place written out. A place that is looked up must be there, and the
way up from a late end must be done in as many turns as there are segments: both are so in a tree that is rooted. -/
namespace TraceEngine

/-- The end of a segment, and the segments above its parent in which it was counted on the way up. -/
structure Walk where
  segment : ℕ
  passed : List ℕ
  deriving DecidableEq, Repr

namespace SegmentTree

variable {t t' : SegmentTree} {now : Time} {b : Backtrace} {i j p : ℕ} {q s s' : Segment} {r : TimeRange}

def change? (t : SegmentTree) (id : ℕ) (f : Segment → Segment) : Option SegmentTree :=
  if id < t.size then some (t.modify id f) else none

theorem change?_eq (h : i < t.size) (f : Segment → Segment) : t.change? i f = some (t.modify i f) := if_pos h

def indexedStart (t : SegmentTree) (s : Segment) (parent : ℕ) (becomesCurrent : Bool) : Option SegmentTree := do
  let id := t.size
  let t ← { t with segments := t.segments.push { s with parent := some parent } }.change? parent Segment.childStart
  let p ← t.get? parent
  return { t with isAsync := t.isAsync || p.concurrentChildren, current := if becomesCurrent then id else t.current }

def indexedRecord (r : TimeRange) (t : SegmentTree) (child ancestor : ℕ) : Option SegmentTree := do
  let c ← t.get? child
  let t ← t.change? ancestor (Segment.addChildRange r)
  if c.rangeRecorded then return t
  else
    let t ← t.change? ancestor (Segment.recountChild c.timeRange)
    t.change? child Segment.markRangeRecorded

/-- Goes up from an ancestor for as long as the ancestors had ended before, and fails if that takes more turns than it
is given. The segments that are passed come with the tree. -/
def climb (r : TimeRange) : ℕ → SegmentTree → ℕ → ℕ → Option (List ℕ × SegmentTree)
  | 0,_,_,_ => none
  | turns+1,t,child,ancestor => do
    let t ← indexedRecord r t child ancestor
    let a ← t.get? ancestor
    match a.parent with
    | some next =>
      if a.endedBefore r.stop then
        let (passed,t) ← climb r turns t ancestor next
        return (ancestor::passed,t)
      else return ([ancestor],t)
    | none => return ([ancestor],t)

def indexedCount (t : SegmentTree) (parent child : ℕ) : Option SegmentTree := do
  let c ← t.get? child
  let p ← t.get? parent
  let t ← t.change? parent (Segment.childComplete c.timeRange)
  if p.countsRange c.timeRange then t.change? child Segment.markRangeRecorded else return t

/-- Counts a child in its parent and, if the parent had ended before, further up, in no more turns than there are
segments. -/
def indexedCountUp (t : SegmentTree) (child : ℕ) : Option (List ℕ × SegmentTree) := do
  let c ← t.get? child
  match c.parent with
  | none => return ([],t)
  | some parent =>
    let t ← t.indexedCount parent child
    let p ← t.get? parent
    if p.isFinished then
      match p.parent with
      | some grandparent => climb c.timeRange t.size { t with isAsync := true } parent grandparent
      | none => return ([],{ t with isAsync := true })
    else return ([],t)

def indexedFinalize (t : SegmentTree) (id : ℕ) : Option SegmentTree := do
  let _ ← t.get? id
  return t.finalize id

def indexedFinish (t : SegmentTree) (b : Backtrace) (id : ℕ) (stop : Time) : Option (List ℕ × SegmentTree) := do
  let s ← t.get? id
  if s.isFinished then return ([],t)
  else
    let s := (s.stopAt stop).addKindParameters
    let s := if id = 0 then s else addBacktrace b s
    let t ← t.change? id fun _ => s
    let (passed,t) ← t.indexedCountUp id
    let t := if t.current = id then { t with current := s.parent.getD 0 } else t
    let s ← t.get? id
    if s.recordOnFinish then return (passed,← t.indexedFinalize id) else return (passed,t)

theorem indexedStart_eq (hp : p < t.size) (s : Segment) (becomesCurrent : Bool) :
    t.indexedStart s p becomesCurrent = some (t.start s p becomesCurrent) := by
  have hsize : p < ({ t with segments := t.segments.push { s with parent := some p } } : SegmentTree).size := by
    simpa [size] using hp.trans (Nat.lt_succ_self t.segments.size)
  obtain ⟨q,hq⟩ := exists_get? ((size_modify _ p Segment.childStart).symm ▸ hsize)
  simp only [indexedStart,change?_eq hsize,Option.bind_eq_bind,Option.bind_some,hq,start,Option.any_some]
  rfl

theorem indexedRecord_eq {c a : ℕ} {sc sa : Segment} (hc : t.get? c = some sc) (ha : t.get? a = some sa)
    (hne : a ≠ c) (r : TimeRange) : indexedRecord r t c a = some (t.recordDescendant r c a) := by
  have hca : (t.modify a (Segment.addChildRange r)).get? c = some sc := by
    rw [get?_modify,if_neg hne,hc]
  have hsize (f : Segment → Segment) : a < (t.modify a f).size := by
    rw [size_modify]
    exact lt_size_of_get? ha
  have hsize' (f g : Segment → Segment) : c < ((t.modify a f).modify a g).size := by
    rw [size_modify,size_modify]
    exact lt_size_of_get? hc
  simp only [indexedRecord,recordDescendant,hc,hca,change?_eq (lt_size_of_get? ha),change?_eq (hsize _),
    change?_eq (hsize' _ _),Option.bind_eq_bind,Option.bind_some]
  split <;> rfl

/-- The way up comes to an end. The segments that are passed stand above the child, one above the other and without a
gap. -/
theorem climb_eq (ht : t.Rooted) {d c a turns : ℕ} {sd sc : Segment} (h : t.Rising d c a sd sc) (ha : a < turns) :
    ∃ passed, climb sd.timeRange turns t c a = some (passed,t.descendantComplete sd.timeRange c a) ∧
      passed <+: t.ancestors c := by
  -- Each turn goes to the parent of the ancestor, which stands before it.
  induction turns generalizing t c a sc with
  | zero => exact absurd ha (Nat.not_lt_zero a)
  | succ turns ih =>
    have hturns := Nat.le_of_lt_succ ha
    obtain ⟨sa,ha⟩ := ht.exists_parent h.child h.parent
    have hne : a ≠ c := (ht.parent_lt h.child h.parent).ne
    have hparent : (sa.absorb sd.timeRange sc).parent = sa.parent :=
      (Segment.kept_absorb sd.timeRange sa sc).later.parent
    have hended : (sa.absorb sd.timeRange sc).endedBefore sd.timeRange.stop =
        sa.endedBefore sd.timeRange.stop := by
      rw [Segment.absorb_eq]
      rfl
    rw [climb,indexedRecord_eq h.child ha hne,ht.ancestors_eq h.child h.parent]
    simp only [Option.bind_eq_bind,Option.bind_some,h.get?_parent ht ha,hparent,hended]
    rcases descendantComplete_step ht h.child ha h.parent sd.timeRange with ⟨he,hstop⟩ | ⟨next,hn,hend,he⟩
    · refine ⟨[a],?_,by simp⟩
      cases hn : sa.parent with
      | none => simp [he]
      | some next => simp [he,hstop next hn]
    · have htimes := (h.quiet ha).sameTimes ht
      have hnext := h.next ht ha hn (Segment.isFinished_of_endedBefore hend)
      obtain ⟨passed,hclimb,habove⟩ := ih (htimes.rooted ht) hnext ((ht.parent_lt ha hn).trans_le hturns)
      rw [htimes.ancestors] at habove
      exact ⟨a::passed,by simp [hn,hend,hclimb,he],List.cons_prefix_cons.mpr ⟨rfl,habove⟩⟩

theorem indexedCount_eq (ht : t.Rooted) (hs : t.get? i = some s) (hs' : (s.stopAt now).Alike s')
    (hp : s'.parent = some p) : (t.modify i fun _ => s').indexedCount p i = some (t.endSegment i s') := by
  have hps : s.parent = some p := hs'.parent ▸ hp
  obtain ⟨q,hq⟩ := ht.exists_parent hs hps
  have hi : (t.modify i fun _ => s').get? i = some s' := by
    rw [get?_modify,if_pos rfl,hs,Option.map_some]
  have hq' : (t.modify i fun _ => s').get? p = some q := by
    rw [get?_modify,if_neg (ht.parent_lt hs hps).ne',hq]
  have hsize : i < ((t.modify i fun _ => s').modify p (Segment.childComplete s'.timeRange)).size := by
    rw [size_modify,size_modify]
    exact lt_size_of_get? hs
  simp only [indexedCount,hi,hq',change?_eq (lt_size_of_get? hq'),change?_eq hsize,Option.bind_eq_bind,
    Option.bind_some,endSegment_of_parent hp,countChild]
  split <;> rfl

/-- The segments that are passed on the way up from the end of a segment stand above its parent. -/
theorem indexedCountUp_eq (ht : t.Rooted) (hs : t.get? i = some s) (hn : s.isFinished = false)
    (hs' : (s.stopAt now).Alike s') :
    ∃ passed, (t.modify i fun _ => s').indexedCountUp i = some (passed,t.countUp i s') ∧
      passed <+: (t.ancestors i).tail := by
  have hi : (t.modify i fun _ => s').get? i = some s' := by
    rw [get?_modify,if_pos rfl,hs,Option.map_some]
  simp only [indexedCountUp,hi,Option.bind_eq_bind,Option.bind_some]
  cases hp : s'.parent with
  | none => exact ⟨[],by simp only [countUp,hp]; rfl,List.nil_prefix⟩
  | some p =>
    have hps : s.parent = some p := hs'.parent ▸ hp
    obtain ⟨q,hq⟩ := ht.exists_parent hs hps
    have hlt := ht.parent_lt hs hps
    have hq' : (t.modify i fun _ => s').get? p = some q := by
      rw [get?_modify,if_neg hlt.ne',hq]
    have hparent : (t.endSegment i s').get? p = some (q.childComplete s'.timeRange) := by
      rw [get?_endSegment hs hp hq hlt.ne,if_neg hlt.ne,if_pos rfl]
    have hlater := Segment.later_childComplete s'.timeRange q
    have hfinished : (q.childComplete s'.timeRange).isFinished = q.isFinished := by
      rw [Segment.childComplete_eq]
      rfl
    simp only [indexedCount_eq ht hs hs' hp,Option.bind_some,hparent,hlater.parent,hfinished,countUp,hp,
      childComplete_of_get? hq',← endSegment_of_parent hp,ht.ancestors_eq hs hps,List.tail_cons]
    cases hf : q.isFinished with
    | false => exact ⟨[],rfl,List.nil_prefix⟩
    | true =>
      cases hnext : q.parent with
      | none => exact ⟨[],rfl,List.nil_prefix⟩
      | some next =>
        have hend := ht.endSegment hs hn hs'
        have hl : t.Later (t.endSegment i s') := later_endSegment ht hs hn hs'
        have hasync : Quiet (t.endSegment i s') { t.endSegment i s' with isAsync := true } := .relabel rfl rfl
        have htimes := hasync.sameTimes hend
        have hturns : next < (t.endSegment i s').size := by
          rw [size_endSegment]
          exact (ht.parent_lt hq hnext).trans (lt_size_of_get? hq)
        have hway := climb_eq (htimes.rooted hend) (rising_endSegment ht hs hn hs' hp hq hf hnext) hturns
        rw [htimes.ancestors,hl.ancestors (hlt.trans (lt_size_of_get? hs))] at hway
        exact hway

theorem indexedFinalize_eq (hs : t.get? i = some s) : t.indexedFinalize i = some (t.finalize i) := by
  simp only [indexedFinalize,hs,Option.bind_eq_bind,Option.bind_some]
  rfl

theorem indexedFinish_eq (ht : t.Rooted) (b : Backtrace) (hi : i < t.size) (now : Time) :
    ∃ passed, t.indexedFinish b i now = some (passed,t.finish b i now) ∧ passed <+: (t.ancestors i).tail := by
  obtain ⟨s,hs⟩ := exists_get? hi
  cases hn : s.isFinished with
  | true =>
    refine ⟨[],?_,List.nil_prefix⟩
    simp only [indexedFinish,finish,hs,hn,Option.bind_eq_bind,Option.bind_some,if_true]
    rfl
  | false =>
    obtain ⟨ps,hps⟩ := exists_parameters_of_end b i (s.stopAt now)
    simp only [indexedFinish,finish,hs,hn,Bool.false_eq_true,if_false,Option.bind_eq_bind,Option.bind_some,
      change?_eq hi]
    generalize (if i = 0 then (s.stopAt now).addKindParameters
      else addBacktrace b (s.stopAt now).addKindParameters) = s' at hps ⊢
    have hs' : (s.stopAt now).Alike s' := hps ▸ (s.stopAt now).alike_parameters ps
    have houtline : s'.outline = s.outline := by rw [hps]; rfl
    obtain ⟨passed,hcount,habove⟩ := indexedCountUp_eq ht hs hn hs'
    refine ⟨passed,?_,habove⟩
    have hkept : ((t.countUp i s').get? i).map (·.recordOnFinish) = some s'.recordOnFinish := by
      rw [map_get?_of_outline (fun _ => rfl) (outline_countUp hs houtline),hs,Option.map_some,
        Segment.recordOnFinish_of_outline houtline]
    obtain ⟨v,hv,hrecord⟩ := Option.map_eq_some_iff.mp hkept
    have hcurrent : ((if (t.countUp i s').current = i then { t.countUp i s' with current := s'.parent.getD 0 }
        else t.countUp i s') : SegmentTree).get? i = some v := by
      split <;> exact hv
    simp only [hcount,Option.bind_some,hcurrent,hrecord,indexedFinalize_eq hcurrent]
    split <;> rfl

/-- The root stands first and has no parent, every other segment has one that stands before it, and the current segment
is one of them. -/
structure Placed (t : SegmentTree) : Prop where
  rooted : t.Rooted
  current : t.current < t.size

theorem Placed.exists_parent (h : t.Placed) (hpos : 0 < i) (hi : i < t.size) :
    ∃ p < i, t.parent? i = some p := by
  obtain ⟨s,hs⟩ := exists_get? hi
  have hsome : s.parent ≠ none := fun hnone => hpos.ne' ((h.rooted.parent_none hs).mp hnone)
  obtain ⟨p,hp⟩ := Option.ne_none_iff_exists'.mp hsome
  exact ⟨p,h.rooted.parent_lt hs hp,parent?_eq_some.mpr ⟨s,hs,hp⟩⟩

theorem Placed.parent?_root (h : t.Placed) : t.parent? 0 = none := by
  obtain ⟨s,hs⟩ := exists_get? h.rooted.nonempty
  simp [parent?,hs,(h.rooted.parent_none hs).mpr rfl]

theorem ancestors_pairwise (t : SegmentTree) (i : ℕ) : (t.ancestors i).Pairwise (· > ·) := by
  induction i using Nat.strong_induction_on with
  | _ i ih =>
    rw [ancestors]
    split
    · split
      · rename_i p _ hp
        exact List.pairwise_cons.mpr ⟨fun a ha => lt_of_mem_ancestors ha,ih p hp⟩
      · exact List.Pairwise.nil
    · exact List.Pairwise.nil

end SegmentTree

/-- The segments that are passed follow one another on the way from the parent of the segment to the root. -/
def Walk.Upward (w : Walk) (t : SegmentTree) : Prop :=
  w.segment < t.size ∧ w.passed <+: (t.ancestors w.segment).tail

namespace SegmentTree

variable {t t' : SegmentTree} {now : Time} {b : Backtrace} {i p : ℕ} {q s : Segment}

/-- What becomes of a tree, with the walks that were made in it meanwhile. -/
structure Passage (t t' : SegmentTree) (walks : List Walk) : Prop where
  placed : t'.Placed
  later : t.Later t'
  upward : ∀ w ∈ walks, w.Upward t'

theorem Passage.refl (h : t.Placed) : Passage t t [] := ⟨h,Later.refl t,by simp⟩

theorem Passage.trans {u : SegmentTree} {walks more : List Walk} (h : Passage t t' walks) (h' : Passage t' u more) :
    Passage t u (walks ++ more) where
  placed := h'.placed
  later := Later.trans h.later h'.later
  upward := by
    have hl : t'.Later u := h'.later
    refine List.forall_mem_append.mpr ⟨fun w hw => ?_,h'.upward⟩
    obtain ⟨hlt,habove⟩ := h.upward w hw
    exact ⟨hlt.trans_le hl.size_le,by rwa [hl.ancestors hlt]⟩

theorem passage_quiet (h : t.Placed) (hq : Quiet t t') (hcurrent : t'.current = t.current) : Passage t t' [] where
  placed := ⟨(hq.sameTimes h.rooted).rooted h.rooted,by rw [hcurrent,hq.size]; exact h.current⟩
  later := hq.later h.rooted
  upward := by simp

theorem passage_move (h : t.Placed) (hi : i < t.size) : Passage t { t with current := i } [] where
  placed := ⟨((Touch.move i).quiet.sameTimes h.rooted).rooted h.rooted,hi⟩
  later := (Touch.move i).quiet.later h.rooted
  upward := by simp

theorem passage_start (h : t.Placed) (becomesCurrent : Bool) (hq : t.get? p = some q)
    (hs : ({ guid := s.guid, name := s.name, start := now } : Segment).Alike s) :
    Passage t (t.start s p becomesCurrent) [] where
  placed := ⟨h.rooted.start becomesCurrent hq hs,by
    have hcurrent := h.current
    rw [current_start,size_start]
    split <;> omega⟩
  later := later_start h.rooted becomesCurrent hq hs
  upward := by simp

theorem passage_finalize (h : t.Placed) (i : ℕ) : Passage t (t.finalize i) [] where
  placed := ⟨(finalize_sameTimes t i).rooted h.rooted,by
    rw [(finalize_rest t i).2,(finalize_sameTimes t i).size]
    exact h.current⟩
  later := later_finalize t i
  upward := by simp

theorem Placed.finish (h : t.Placed) (b : Backtrace) (i : ℕ) (now : Time) : (t.finish b i now).Placed := by
  refine ⟨h.rooted.finish b i now,?_⟩
  rw [size_finish h.rooted]
  rcases t.finish_cases b i now with he | ⟨s,hs,hn⟩
  · rw [he]
    exact h.current
  · rw [(finish_rest b now h.rooted hs hn).2]
    split
    · cases hp : s.parent with
      | none => exact h.rooted.nonempty
      | some p => exact (h.rooted.parent_lt hs hp).trans (lt_size_of_get? hs)
    · exact h.current

theorem passage_finish (h : t.Placed) (b : Backtrace) (hi : i < t.size) (now : Time) :
    ∃ passed, t.indexedFinish b i now = some (passed,t.finish b i now) ∧
      Passage t (t.finish b i now) [⟨i,passed⟩] := by
  obtain ⟨passed,he,habove⟩ := indexedFinish_eq h.rooted b hi now
  have hl : t.Later (t.finish b i now) := later_finish h.rooted b i now
  refine ⟨passed,he,h.finish b i now,hl,fun w hw => ?_⟩
  obtain rfl := List.mem_singleton.mp hw
  exact ⟨(size_finish h.rooted b i now).symm ▸ hi,by rwa [hl.ancestors hi]⟩

end SegmentTree

end TraceEngine
