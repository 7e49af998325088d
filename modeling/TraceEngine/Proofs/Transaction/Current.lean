import TraceEngine.Proofs.Transaction.ForcedEnd

/-! The segment under which the next one starts. When the current segment ends its parent becomes the current one, also
if that has ended before; so the current segment is the root, or runs, or was ended while a segment below it was the
current one. -/
namespace TraceEngine

/-- An operation by which its caller says which segment is the current one. -/
def Operation.setsCurrent : Operation → Bool
  | .setCurrent _ => true
  | _ => false

def Operation.startNext (start : Time) : Operation := .startNamed "call" { guid := ⟨0⟩, start }

namespace SegmentTree

variable {t t' : SegmentTree} {now : Time} {b : Backtrace} {i p : ℕ} {s : Segment}

/-- The current segment and those above it. -/
def currentPath (t : SegmentTree) : List ℕ := t.current::t.ancestors t.current

theorem currentPath_start (ht : t.Rooted) (becomesCurrent : Bool) {q : Segment} (hq : t.get? p = some q)
    (hcurrent : t.current < t.size) (hs : ({ guid := s.guid, name := s.name, start := now } : Segment).Alike s)
    (hp : becomesCurrent = true → p = t.current) :
    (t.start s p becomesCurrent).currentPath = if becomesCurrent then t.size::t.currentPath else t.currentPath := by
  have hl : t.Later (t.start s p becomesCurrent) := later_start ht becomesCurrent hq hs
  rw [currentPath,currentPath,current_start]
  cases becomesCurrent with
  | false => exact congrArg (t.current :: ·) (hl.ancestors hcurrent)
  | true =>
    obtain rfl := hp rfl
    have ht' := ht.start true hq hs
    simp only [if_true]
    rw [ht'.ancestors_eq (get?_start_size hcurrent s true) rfl,hl.ancestors hcurrent]

/-- The end of the current segment takes it off the way up, unless it is the root. No other end changes the way up. -/
theorem currentPath_finish (ht : t.Rooted) (hcurrent : t.current < t.size) (hs : t.get? i = some s)
    (hn : s.isFinished = false) :
    (t.finish b i now).currentPath = if t.current = i ∧ 0 < i then t.ancestors i else t.currentPath := by
  have hl : t.Later (t.finish b i now) := later_finish ht b i now
  rw [currentPath,(finish_rest b now ht hs hn).2]
  by_cases hi : t.current = i
  · cases hp : s.parent with
    | none =>
      obtain rfl := (ht.parent_none hs).mp hp
      rw [if_pos hi,if_neg (by simp),Option.getD_none,hl.ancestors ht.nonempty,currentPath,hi]
    | some p =>
      have hlt := ht.parent_lt hs hp
      rw [if_pos hi,if_pos ⟨hi,by omega⟩,Option.getD_some,ht.ancestors_eq hs hp,
        hl.ancestors (hlt.trans (lt_size_of_get? hs))]
  · rw [if_neg hi,if_neg fun h => hi h.1,hl.ancestors hcurrent]
    rfl

theorem runs_start (hp : p < t.size) (becomesCurrent : Bool) (hi : i < t.size) :
    (t.start s p becomesCurrent).runs i = t.runs i := by
  rw [runs,runs,get?_start hp,if_neg hi.ne]
  split
  · rw [Option.any_map]
    rfl
  · rfl

/-- The current segment and those above it run, but for the root and for those that are excused. -/
structure Upright (t : SegmentTree) (excused : ℕ → Prop) : Prop where
  current : t.current < t.size
  path : ∀ i ∈ t.currentPath, i = 0 ∨ t.runs i = true ∨ excused i

theorem Upright.mono {e e' : ℕ → Prop} (h : t.Upright e) (he : ∀ i, e i → e' i) : t.Upright e' :=
  ⟨h.current,fun i hi => (h.path i hi).imp_right (Or.imp_right (he i))⟩

variable {excused : ℕ → Prop}

theorem Upright.of_sameTimes (h : t.Upright excused) (htimes : t.SameTimes t') (hcurrent : t'.current = t.current) :
    t'.Upright excused where
  current := hcurrent ▸ htimes.size ▸ h.current
  path i hi := by
    rw [currentPath,hcurrent,htimes.ancestors] at hi
    rw [runs,htimes.any_not_isFinished]
    exact h.path i hi

theorem Upright.start (ht : t.Rooted) (h : t.Upright excused) (becomesCurrent : Bool) {q : Segment}
    (hq : t.get? p = some q) (hs : ({ guid := s.guid, name := s.name, start := now } : Segment).Alike s)
    (hp : becomesCurrent = true → p = t.current) : (t.start s p becomesCurrent).Upright excused := by
  have hlt := lt_size_of_get? hq
  have hcurrent := h.current
  have hnew : (t.start s p becomesCurrent).runs t.size = true := by
    have hstop : s.stop = none := hs.stop
    rw [runs,get?_start_size hlt]
    simp [Segment.isFinished,hstop]
  have hold : ∀ i ∈ t.currentPath, i = 0 ∨ (t.start s p becomesCurrent).runs i = true ∨ excused i := by
    intro i hi
    have hi' : i < t.size := by
      rcases List.mem_cons.mp hi with rfl | hi
      · exact hcurrent
      · exact (lt_of_mem_ancestors hi).trans hcurrent
    rw [runs_start hlt becomesCurrent hi']
    exact h.path i hi
  constructor
  case current =>
    rw [current_start,size_start]
    split <;> omega
  case path =>
    rw [currentPath_start ht becomesCurrent hq hcurrent hs hp]
    split
    · exact List.forall_mem_cons.mpr ⟨Or.inr (Or.inl hnew),hold⟩
    · exact hold

/-- The end of a segment need be excused only if the current one is below it. -/
theorem Upright.finish (ht : t.Rooted) (h : t.Upright excused) (b : Backtrace) (i : ℕ) (now : Time) :
    (t.finish b i now).Upright fun j => excused j ∨ j = i ∧ t.runs i = true ∧ i ∈ t.ancestors t.current := by
  rcases t.finish_cases b i now with he | ⟨s,hs,hn⟩
  · rw [he]
    exact h.mono fun j => Or.inl
  · have hruns : t.runs i = true := runs_eq_true.mpr ⟨s,hs,hn⟩
    have hlt := lt_size_of_get? hs
    have hsize := size_finish ht b i now
    constructor
    case current =>
      rw [(finish_rest b now ht hs hn).2,hsize]
      split
      · cases hp : s.parent with
        | none => exact ht.nonempty
        | some p => exact (ht.parent_lt hs hp).trans hlt
      · exact h.current
    case path =>
      -- What is left of the way up was on it before, and the current segment itself is not on it any more.
      have hleft : ∀ j ∈ (t.finish b i now).currentPath,
          j ∈ t.currentPath ∧ (j = i → 0 < i → i ∈ t.ancestors t.current) := by
        intro j hj
        rw [currentPath_finish ht h.current hs hn] at hj
        split at hj
        · rename_i hi
          obtain ⟨rfl,-⟩ := hi
          exact ⟨List.mem_cons_of_mem _ hj,fun hji => absurd (lt_of_mem_ancestors hj) (by omega)⟩
        · rename_i hi
          refine ⟨hj,fun hji hpos => ?_⟩
          rcases List.mem_cons.mp hj with hj | hj
          · exact absurd ⟨hj.symm.trans hji,hpos⟩ hi
          · exact hji ▸ hj
      intro j hj
      obtain ⟨hpath,habove⟩ := hleft j hj
      by_cases hji : j = i
      · rcases Nat.eq_zero_or_pos i with h0 | hpos
        · exact Or.inl (hji.trans h0)
        · exact Or.inr (Or.inr (Or.inr ⟨hji,hruns,habove hji hpos⟩))
      · rw [runs_finish ht b now hji]
        exact (h.path j hpath).imp_right (Or.imp_right Or.inl)

end SegmentTree

namespace Transaction

open SegmentTree (SameTimes)

variable {t t' : Transaction} {op : Operation} {ops : List Operation} {i : ℕ}

/-- What an operation may do to the current segment while the transaction goes on, unless it says itself which segment
is to be the current one. -/
inductive Shift (t : Transaction) (op : Operation) (t' : Transaction) : Prop
  | stay (htimes : t.tree.SameTimes t'.tree) (hcurrent : t'.tree.current = t.tree.current)
  | start {p : ℕ} {q s : Segment} {now : Time} {b : Bool} (hq : t.tree.get? p = some q)
      (hs : ({ guid := s.guid, name := s.name, start := now } : Segment).Alike s)
      (hp : b = true → p = t.tree.current) (htree : t'.tree = t.tree.start s p b)
  | finish {id : ℕ} {stop : Time} {frames : List String} (hop : op = .finishSegment id stop frames)
      (htree : t'.tree = t.tree.finish (t.backtrace frames) id stop)

theorem Shift.of_unmoved (h : t.Unmoved t') : Shift t op t' :=
  .stay (h.tree ▸ .refl t.tree) (congrArg SegmentTree.current h.tree)

theorem Shift.refl (t : Transaction) (op : Operation) : Shift t op t := .of_unmoved (.refl t)

theorem shift_startSegment (name : String) (kind : SegmentKind) (o : SegmentOptions) :
    Shift t op (t.after ((t.startSegment name kind o).map (·.2))) := by
  cases h : t.startSegment name kind o with
  | error e => exact .refl t op
  | ok r =>
    obtain ⟨-,q,s,hq,hs,-,-,htree,-⟩ := startSegment_ok h
    refine .start hq hs (fun hnone => ?_) htree
    rw [Option.isNone_iff_eq_none.mp hnone,Option.getD_none]

theorem shift_modify (ht : t.tree.Rooted) (id : ℕ) {f : Segment → Segment} (hf : ∀ s : Segment, s.Alike (f s))
    (htree : t'.tree = t.tree.modify id f) : Shift t op t' := by
  have htouch : t.tree.Touch (t.tree.modify id f) := .retouch id hf
  exact .stay (htree ▸ htouch.quiet.sameTimes ht) (by rw [htree]; rfl)

theorem shift_apply (ht : t.tree.Rooted) (hset : op.setsCurrent = false) (hopen : (t.apply op).isFinished = false) :
    Shift t op (t.apply op) := by
  cases op with
  | rename | decide | setForcePersist | setSyntheticsId | acceptHeaders | acceptContext | insertHeaders
  | requestHeaders => exact .of_unmoved (unmoved_apply rfl)
  | startNamed name o =>
    simp only [apply,startNamed]
    cases required "name" name with
    | error e => exact .refl t _
    | ok n => exact shift_startSegment n .generic o
  | startKind kind o => exact shift_startSegment _ kind o
  | finishSegment id stop frames => exact onSegment (.refl t _) id fun s _ => .finish rfl rfl
  | setCurrent id => cases hset
  | changeSegment id change => exact onSegment (.refl t _) id fun s _ => shift_modify ht id (alike_change change) rfl
  | setHostHeader id host =>
    exact onSegment (.refl t _) id fun s _ => shift_modify ht id (alike_setHostHeader · host) rfl
  | noticeError id error =>
    refine onSegment (.refl t _) id fun s _ => ?_
    cases t.settings.highSecurity with
    | true => exact .of_unmoved ⟨rfl,rfl,rfl⟩
    | false =>
      have hf : ∀ s : Segment, s.Alike { s with error := some error } :=
        fun s => ⟨rfl,rfl,rfl,rfl,rfl,rfl,rfl,rfl,rfl,rfl⟩
      cases s.error <;> exact shift_modify ht id hf rfl
  | finish stop frames chance =>
    have hended := isFinished_finish ht stop frames chance
    exact absurd (hopen.symm.trans hended) (by decide)

/-- In a run a segment was ended while a segment below it was the current one. -/
def Overtaken (t : Transaction) (ops : List Operation) (i : ℕ) : Prop :=
  ∃ earlier stop frames later, ops = earlier ++ .finishSegment i stop frames::later ∧
    (t.run earlier).tree.runs i = true ∧ i ∈ (t.run earlier).tree.ancestors (t.run earlier).tree.current

theorem Overtaken.append (h : t.Overtaken ops i) (op : Operation) : t.Overtaken (ops ++ [op]) i := by
  obtain ⟨earlier,stop,frames,later,rfl,hrest⟩ := h
  exact ⟨earlier,stop,frames,later ++ [op],by rw [List.append_assoc]; rfl,hrest⟩

theorem upright_concat (ht : (t.run ops).tree.Rooted) (h : (t.run ops).tree.Upright (t.Overtaken ops))
    (hshift : Shift (t.run ops) op ((t.run ops).apply op)) :
    (t.run (ops ++ [op])).tree.Upright (t.Overtaken (ops ++ [op])) := by
  have hrun : t.run (ops ++ [op]) = (t.run ops).apply op := run_append t ops [op]
  have hmono : (t.run ops).tree.Upright (t.Overtaken (ops ++ [op])) := h.mono fun i hi => hi.append op
  rw [hrun]
  cases hshift with
  | stay htimes hcurrent => exact hmono.of_sameTimes htimes hcurrent
  | @start p q s now b hq hs hp htree =>
    rw [htree]
    exact hmono.start ht b hq hs hp
  | @finish id stop frames hop htree =>
    rw [htree]
    refine (hmono.finish ht _ id stop).mono fun i hi => ?_
    rcases hi with hi | ⟨rfl,hruns,habove⟩
    · exact hi
    · exact ⟨ops,stop,frames,[],by rw [hop],hruns,habove⟩

theorem Reckoned.isFinished_apply (h : Reckoned t) (op : Operation) (hopen : (t.apply op).isFinished = false) :
    t.isFinished = false := by
  by_contra hf
  have hf : t.isFinished = true := by simpa using hf
  have hstop := (h.touch_of_ended hf op).2
  rw [isFinished,hstop] at hopen
  exact absurd (hf.symm.trans hopen) (by decide)

theorem Fresh.upright (h : t.Fresh) (ops : List Operation) (hset : ∀ op ∈ ops, op.setsCurrent = false)
    (hopen : (t.run ops).isFinished = false) : (t.run ops).tree.Upright (t.Overtaken ops) := by
  induction ops using List.reverseRecOn with
  | nil =>
    have hcurrent : t.tree.current = 0 := by
      obtain ⟨name,guid,rootGuid,traceId,start,settings,decider,rfl⟩ := h
      rfl
    refine ⟨hcurrent ▸ h.rooted.nonempty,fun i hi => Or.inl ?_⟩
    rcases List.mem_cons.mp hi with hi | hi
    · exact hi.trans hcurrent
    · have hlt : i < 0 := hcurrent ▸ SegmentTree.lt_of_mem_ancestors hi
      exact absurd hlt (Nat.not_lt_zero i)
  | append_singleton ops op ih =>
    have hreckoned := h.reckoned.run ops
    have hrun : t.run (ops ++ [op]) = (t.run ops).apply op := run_append t ops [op]
    rw [hrun] at hopen
    have hbefore := ih (fun op' hop => hset op' (List.mem_append_left _ hop)) (hreckoned.isFinished_apply op hopen)
    exact upright_concat hreckoned.rooted hbefore (shift_apply hreckoned.rooted (hset op (by simp)) hopen)

theorem parent?_startSegment {name : String} {kind : SegmentKind} {o : SegmentOptions} {r : ℕ × Transaction}
    (hparent : o.parent = none) (h : t.startSegment name kind o = .ok r) :
    r.2.tree.parent? r.1 = some t.tree.current := by
  obtain ⟨hopen,q,-,hq,-⟩ := startSegment_ok h
  obtain ⟨s,u,-,-,-,-,he⟩ := startSegment_of_get? (t := t) hopen hq
  obtain rfl := Except.ok.inj (he.symm.trans h)
  have hnew := SegmentTree.get?_start_size (SegmentTree.lt_size_of_get? hq) s o.parent.isNone
  exact SegmentTree.parent?_eq_some.mpr ⟨_,hnew,by rw [hparent,Option.getD_none]⟩

/-- As long as a transaction goes on and nobody says otherwise, the current segment is the root, or it runs, or it was
ended while a segment below it was the current one. A segment for which no parent is given starts below it. -/
theorem Fresh.current_runs (h : t.Fresh) (ops : List Operation) (hset : ∀ op ∈ ops, op.setsCurrent = false)
    (hopen : (t.run ops).isFinished = false) :
    (∃ s, (t.run ops).tree.get? (t.run ops).tree.current = some s ∧
      ((t.run ops).tree.current = 0 ∨ s.isFinished = false ∨ t.Overtaken ops (t.run ops).tree.current)) ∧
    ∀ name kind o r, o.parent = none → (t.run ops).startSegment name kind o = .ok r →
      r.2.tree.parent? r.1 = some (t.run ops).tree.current := by
  have hupright := h.upright ops hset hopen
  obtain ⟨s,hs⟩ := SegmentTree.exists_get? hupright.current
  refine ⟨⟨s,hs,?_⟩,fun _ _ _ _ => parent?_startSegment⟩
  rcases hupright.path _ List.mem_cons_self with hroot | hruns | hover
  · exact Or.inl hroot
  · exact Or.inr (Or.inl (by simpa [SegmentTree.runs,hs] using hruns))
  · exact Or.inr (Or.inr hover)

/-- The current segment is ended. Its parent, below which another segment runs, takes its place. -/
def endedInTurn : List Operation := [.startNext 1,.startNext 2,.startUnder 1 3,.stopAt 2 4]

theorem current_runs_endedInTurn : (∀ op ∈ endedInTurn, op.setsCurrent = false) ∧
    (plain.run endedInTurn).isFinished = false ∧
    (plain.run endedInTurn).tree.current = 1 ∧
    ∃ s, (plain.run endedInTurn).tree.get? (plain.run endedInTurn).tree.current = some s ∧
      ((plain.run endedInTurn).tree.current = 0 ∨ s.isFinished = false ∨
        plain.Overtaken endedInTurn (plain.run endedInTurn).tree.current) := by
  have hset : ∀ op ∈ endedInTurn, op.setsCurrent = false := by simp [endedInTurn,Operation.startNext,
    Operation.startUnder,Operation.stopAt,Operation.setsCurrent]
  have hopen : (plain.run endedInTurn).isFinished = false := by decide +kernel
  exact ⟨hset,hopen,by decide +kernel,(Fresh.current_runs plain_fresh endedInTurn hset hopen).1⟩

def endedOutOfTurn : List Operation := [.startNext 1,.startNext 2,.stopAt 1 3,.stopAt 2 4]

/-- Then it is the current one although it has ended, and the next segment starts below it. -/
theorem current_ended : (∀ op ∈ endedOutOfTurn, op.setsCurrent = false) ∧
    (plain.run endedOutOfTurn).isFinished = false ∧ (plain.run endedOutOfTurn).tree.current = 1 ∧
    ((plain.run endedOutOfTurn).tree.get? 1).any (·.isFinished) = true ∧
    (plain.run (endedOutOfTurn ++ [.startNext 5])).tree.parent? 3 = some 1 := by
  refine ⟨?_,by decide +kernel,by decide +kernel,by decide +kernel,by decide +kernel⟩
  simp [endedOutOfTurn,Operation.startNext,Operation.stopAt,Operation.setsCurrent]

end Transaction

end TraceEngine
