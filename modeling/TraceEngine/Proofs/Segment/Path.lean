import TraceEngine.Proofs.Segment.Progress

/-! Operations on a tree of segments, taken apart into changes: the way up after a late end, and the
end of a segment. -/
namespace TraceEngine.SegmentTree

open Relation (ReflTransGen)

variable {t t' : SegmentTree} {now : Time} {orderly : Prop} {b : Backtrace} {i : ℕ} {s s' : Segment}

/-- Any number of changes at one time. -/
abbrev Changes (now : Time) (orderly : Prop) : SegmentTree → SegmentTree → Prop :=
  ReflTransGen (Change now orderly)

/-- Any number of quiet changes. -/
abbrev Quiets : SegmentTree → SegmentTree → Prop := ReflTransGen Quiet

theorem Quiets.changes (h : Quiets t t') : Changes now orderly t t' :=
  ReflTransGen.mono (fun _ _ => Change.quiet) _ _ h

theorem Quiets.sameTimes (ht : t.Rooted) (h : Quiets t t') : SameTimes t t' := by
  induction h with
  | refl => exact SameTimes.refl t
  | tail _ hq ih => exact ih.trans (hq.sameTimes (ih.rooted ht))

theorem Changes.rooted (ht : t.Rooted) (h : Changes now orderly t t') : t'.Rooted := by
  induction h with
  | refl => exact ht
  | tail _ hc ih => exact hc.rooted ih

theorem Changes.get? (ht : t.Rooted) (h : Changes now orderly t t') (hs : t.get? i = some s) :
    ∃ s', t'.get? i = some s' ∧ s.Later s' ∧
      (s'.stop = s.stop ∨ s.stop = none ∧ s'.stop = some (max now s.start)) := by
  induction h with
  | refl => exact ⟨s,hs,Segment.Later.refl s,Or.inl rfl⟩
  | tail hc h ih =>
    obtain ⟨u,hu,hlu,hstop⟩ := ih
    obtain ⟨v,hv,hlv,hstop'⟩ := h.get? (Changes.rooted ht hc) hu
    refine ⟨v,hv,hlu.trans hlv,?_⟩
    rcases hstop with hstop | ⟨hnone,hstop⟩
    · rwa [hstop,hlu.start] at hstop'
    · exact Or.inr ⟨hnone,hlv.stop hstop⟩

theorem Changes.later (ht : t.Rooted) (h : Changes now orderly t t') : t.Later t' := by
  intro i s hs
  obtain ⟨s',hs',hl,-⟩ := Changes.get? ht h hs
  exact ⟨s',hs',hl⟩

/-- One step on the way up from a late descendant: the ancestor takes up the range, and the way goes
on to its parent only if the ancestor had ended before. -/
theorem descendantComplete_step (ht : t.Rooted) {c a : ℕ} {sc sa : Segment} (hc : t.get? c = some sc)
    (ha : t.get? a = some sa) (hp : sc.parent = some a) (r : TimeRange) :
    (t.descendantComplete r c a = t.recordDescendant r c a ∧
        ∀ next, sa.parent = some next → sa.endedBefore r.stop = false) ∨
      ∃ next, sa.parent = some next ∧ sa.endedBefore r.stop = true ∧
        t.descendantComplete r c a = (t.recordDescendant r c a).descendantComplete r a next := by
  have hne : a ≠ c := (ht.parent_lt hc hp).ne
  have ha' : (t.recordDescendant r c a).get? a = some (sa.absorb r sc) := by
    rw [get?_recordDescendant hc ha hne,if_neg hne,if_pos rfl]
  have hpar : (sa.absorb r sc).parent = sa.parent := (Segment.kept_absorb r sa sc).later.parent
  have hended : (sa.absorb r sc).endedBefore r.stop = sa.endedBefore r.stop := by
    rw [Segment.absorb_eq]
    rfl
  rw [descendantComplete]
  simp only [ha',hpar,hended]
  cases hn : sa.parent with
  | none => exact Or.inl ⟨rfl,by simp⟩
  | some next =>
    have hlt : next < a := ht.parent_lt ha hn
    by_cases he : sa.endedBefore r.stop = true
    · exact Or.inr ⟨next,rfl,he,by simp [hlt,he]⟩
    · refine Or.inl ⟨by simp [he],fun _ _ => by simpa using he⟩

/-- The range of a segment that has ended is on its way up from an ancestor to the parent of that. -/
structure Rising (t : SegmentTree) (d c a : ℕ) (sd sc : Segment) : Prop where
  late : t.get? d = some sd
  finished : sd.isFinished = true
  child : t.get? c = some sc
  childFinished : sc.isFinished = true
  parent : sc.parent = some a
  above : c ∈ t.ancestors d

namespace Rising

variable {d c a : ℕ} {sd sc sa : Segment}

theorem quiet (h : t.Rising d c a sd sc) (ha : t.get? a = some sa) :
    Quiet t (t.recordDescendant sd.timeRange c a) :=
  .absorb h.late h.finished h.child h.childFinished ha h.parent h.above

theorem get?_late (h : t.Rising d c a sd sc) (ht : t.Rooted) (ha : t.get? a = some sa) :
    (t.recordDescendant sd.timeRange c a).get? d = some sd := by
  have hac : a < c := ht.parent_lt h.child h.parent
  have hcd : c < d := lt_of_mem_ancestors h.above
  rw [get?_recordDescendant h.child ha hac.ne,if_neg hcd.ne',if_neg (hac.trans hcd).ne',h.late]

theorem get?_parent (h : t.Rising d c a sd sc) (ht : t.Rooted) (ha : t.get? a = some sa) :
    (t.recordDescendant sd.timeRange c a).get? a = some (sa.absorb sd.timeRange sc) := by
  have hac : a < c := ht.parent_lt h.child h.parent
  rw [get?_recordDescendant h.child ha hac.ne,if_neg hac.ne,if_pos rfl]

theorem mem_ancestors (h : t.Rising d c a sd sc) (ht : t.Rooted) : a ∈ t.ancestors d := by
  refine ancestors_trans ?_ h.above
  rw [ht.ancestors_eq h.child h.parent]
  exact List.mem_cons_self

theorem next (h : t.Rising d c a sd sc) (ht : t.Rooted) (ha : t.get? a = some sa) {next : ℕ}
    (hn : sa.parent = some next) (hf : sa.isFinished = true) :
    (t.recordDescendant sd.timeRange c a).Rising d a next sd (sa.absorb sd.timeRange sc) where
  late := h.get?_late ht ha
  finished := h.finished
  child := h.get?_parent ht ha
  childFinished := (Segment.kept_absorb sd.timeRange sa sc).later.isFinished hf
  parent := (Segment.kept_absorb sd.timeRange sa sc).later.parent.trans hn
  above := by
    rw [((h.quiet ha).sameTimes ht).ancestors]
    exact h.mem_ancestors ht

end Rising

theorem quiets_descendantComplete (ht : t.Rooted) {d c a : ℕ} {sd sc : Segment}
    (h : t.Rising d c a sd sc) : Quiets t (t.descendantComplete sd.timeRange c a) := by
  induction a using Nat.strong_induction_on generalizing t c sc with
  | _ a ih =>
    obtain ⟨sa,ha⟩ := ht.exists_parent h.child h.parent
    have hq := h.quiet ha
    rcases descendantComplete_step ht h.child ha h.parent sd.timeRange with ⟨he,-⟩ | ⟨next,hn,hend,he⟩
    · rw [he]
      exact .single hq
    · rw [he]
      have hnext := h.next ht ha hn (Segment.isFinished_of_endedBefore hend)
      exact .head hq (ih next (ht.parent_lt ha hn) ((hq.sameTimes ht).rooted ht) hnext)

theorem childComplete_of_get? {p c : ℕ} {q : Segment} (hq : t.get? p = some q) (r : TimeRange) :
    t.childComplete p c r =
      if q.isFinished then
        match q.parent with
        | some next => { t.countChild p c r with isAsync := true }.descendantComplete r p next
        | none => { t.countChild p c r with isAsync := true }
      else t.countChild p c r := by
  cases hp : q.parent <;> simp only [childComplete,countChild,hq,hp]

/-- Puts an ended segment in its place and counts it in its parent and as far up as it goes. -/
def countUp (t : SegmentTree) (i : ℕ) (s : Segment) : SegmentTree :=
  match s.parent with
  | some parent => (t.modify i fun _ => s).childComplete parent i s.timeRange
  | none => t.modify i fun _ => s

/-- After the end of a segment whose parent had ended before, its range is on its way up from there. -/
theorem rising_endSegment (ht : t.Rooted) (hs : t.get? i = some s) (hn : s.isFinished = false)
    (hs' : (s.stopAt now).Alike s') {p next : ℕ} {q : Segment} (hp : s'.parent = some p)
    (hq : t.get? p = some q) (hf : q.isFinished = true) (hnext : q.parent = some next) :
    Rising { t.endSegment i s' with isAsync := true } i p next
      { s' with rangeRecorded := s'.rangeRecorded || q.countsRange s'.timeRange }
      (q.childComplete s'.timeRange) := by
  have hend := ht.endSegment hs hn hs'
  have hlt : p < i := ht.parent_lt hs (hs'.parent ▸ hp)
  have hget := get?_endSegment hs hp hq hlt.ne
  have hl := Segment.later_childComplete s'.timeRange q
  have hi := (hget i).trans (if_pos rfl)
  have hasync : Quiet (t.endSegment i s') { t.endSegment i s' with isAsync := true } := .relabel rfl rfl
  have hfin : s'.isFinished = true := Segment.isFinished_of_stopAt hs'
  refine ⟨hi,hfin,(hget p).trans ((if_neg hlt.ne).trans (if_pos rfl)),
    hl.isFinished hf,hl.parent.trans hnext,?_⟩
  rw [(hasync.sameTimes hend).ancestors,hend.ancestors_eq hi hp]
  exact List.mem_cons_self

theorem quiets_childComplete (ht : t.Rooted) (hs : t.get? i = some s) (hn : s.isFinished = false)
    (hs' : (s.stopAt now).Alike s') {p : ℕ} (hp : s'.parent = some p) :
    Quiets (t.endSegment i s') ((t.modify i fun _ => s').childComplete p i s'.timeRange) := by
  have hps : s.parent = some p := hs'.parent ▸ hp
  obtain ⟨q,hq⟩ := ht.exists_parent hs hps
  have hq' : (t.modify i fun _ => s').get? p = some q := by
    rw [get?_modify,if_neg (ht.parent_lt hs hps).ne',hq]
  rw [childComplete_of_get? hq',← endSegment_of_parent hp]
  split
  · rename_i hf
    have hend := ht.endSegment hs hn hs'
    have hasync : Quiet (t.endSegment i s') { t.endSegment i s' with isAsync := true } :=
      .relabel rfl rfl
    split
    · rename_i next hnext
      have hrising := rising_endSegment ht hs hn hs' hp hq hf hnext
      have hway := quiets_descendantComplete ((hasync.sameTimes hend).rooted hend) hrising
      exact .head hasync hway
    · exact .single hasync
  · exact .refl

theorem quiets_countUp (ht : t.Rooted) (hs : t.get? i = some s) (hn : s.isFinished = false)
    (hs' : (s.stopAt now).Alike s') :
    Quiets (t.endSegment i s') (t.countUp i s') := by
  cases hp : s'.parent with
  | none =>
    have he : t.countUp i s' = t.endSegment i s' := by simp only [countUp,endSegment,hp]
    rw [he]
  | some p =>
    have he : t.countUp i s' = (t.modify i fun _ => s').childComplete p i s'.timeRange := by
      simp only [countUp,hp]
    rw [he]
    exact quiets_childComplete ht hs hn hs' hp

theorem exists_parameters_of_end (b : Backtrace) (i : ℕ) (s : Segment) :
    ∃ ps, (if i = 0 then s.addKindParameters else addBacktrace b s.addKindParameters) =
      { s with parameters := ps } := by
  obtain ⟨ps,hps⟩ := s.addKindParameters_eq
  obtain ⟨qs,hqs⟩ := Segment.addBacktrace_eq b s.addKindParameters
  split
  · exact ⟨ps,hps⟩
  · exact ⟨qs,by rw [hqs,hps]⟩

/-- After a segment has ended and has been counted, only the current segment changes, and a segment
that is to be finalized at once gets its result. -/
theorem finish_of_get? (hs : t.get? i = some s) (hn : s.isFinished = false) (stop : Time) :
    ∃ s' t', (s.stopAt stop).Alike s' ∧ s'.outline = s.outline ∧
      t' = { t.countUp i s' with current :=
        if (t.countUp i s').current = i then s'.parent.getD 0 else (t.countUp i s').current } ∧
      t.finish b i stop = if s.recordOnFinish then t'.finalize i else t' := by
  have hended := exists_parameters_of_end b i (s.stopAt stop)
  simp only [finish,hs,hn,Bool.false_eq_true,if_false]
  generalize (if i = 0 then (s.stopAt stop).addKindParameters
    else addBacktrace b (s.stopAt stop).addKindParameters) = s' at hended
  obtain ⟨ps,hps⟩ := hended
  have houtline : s'.outline = s.outline := by rw [hps]; rfl
  have hrecord : s'.recordOnFinish = s.recordOnFinish := Segment.recordOnFinish_of_outline houtline
  have hcurrent : ∀ u : SegmentTree,
      (if u.current = i then { u with current := s'.parent.getD 0 } else u) =
        { u with current := if u.current = i then s'.parent.getD 0 else u.current } := by
    intro u
    split <;> rfl
  refine ⟨s',_,hps ▸ (s.stopAt stop).alike_parameters ps,houtline,rfl,?_⟩
  rw [hrecord,← hcurrent]
  rfl

theorem changes_finalize (h : ∀ s, t.get? i = some s → s.isFinished = true) :
    Changes now orderly t (t.finalize i) := by
  rcases t.finalize_cases i with he | ⟨s,hs,hn⟩
  · rw [he]
  · exact .single (.finalize hs (h s hs) hn)

theorem finalize_sameTimes (t : SegmentTree) (i : ℕ) : SameTimes t (t.finalize i) := by
  rcases t.finalize_cases i with he | ⟨s,hs,hn⟩
  · rw [he]
    exact SameTimes.refl t
  · exact sameTimes_finalize hs hn

theorem finish_cases (t : SegmentTree) (b : Backtrace) (i : ℕ) (now : Time) :
    t.finish b i now = t ∨ ∃ s, t.get? i = some s ∧ s.isFinished = false := by
  cases hs : t.get? i with
  | none => exact Or.inl (by simp only [finish,hs])
  | some s =>
    cases hn : s.isFinished with
    | true => exact Or.inl (by simp only [finish,hs,hn,if_true])
    | false => exact Or.inr ⟨s,rfl,hn⟩

theorem SameTimes.isFinished_of_endSegment (htimes : SameTimes (t.endSegment i s') t') (ht : t.Rooted)
    (hs : t.get? i = some s) (hs' : (s.stopAt now).Alike s') :
    ∃ u, t'.get? i = some u ∧ u.isFinished = true := by
  obtain ⟨r,hr,-⟩ := get?_endSegment_self ht hs hs'.parent
  obtain ⟨u,hu,htu⟩ := htimes.get? hr
  have hfin : s'.isFinished = true := Segment.isFinished_of_stopAt hs'
  exact ⟨u,hu,(Segment.isFinished_of_times htu).trans hfin⟩

theorem exists_countUp (b : Backtrace) (now : Time) (orderly : Prop) (ht : t.Rooted)
    (hs : t.get? i = some s) (hn : s.isFinished = false) :
    ∃ s', (s.stopAt now).Alike s' ∧ Changes now orderly (t.countUp i s') (t.finish b i now) ∧
      SameTimes (t.endSegment i s') (t.finish b i now) := by
  obtain ⟨s',t',halike,-,ht',he⟩ := finish_of_get? (b := b) hs hn now
  have hq : Quiets (t.countUp i s') t' := .single (.relabel (by rw [ht']) (by rw [ht']))
  have hend := ht.endSegment hs hn halike
  have htimes := Quiets.sameTimes hend ((quiets_countUp ht hs hn halike).trans hq)
  refine ⟨s',halike,(Quiets.changes hq).trans ?_,?_⟩
  · rw [he]
    split
    · refine changes_finalize fun u hu => ?_
      obtain ⟨v,hv,hvf⟩ := htimes.isFinished_of_endSegment ht hs halike
      exact get?_inj hu hv ▸ hvf
    · exact .refl
  · rw [he]
    split
    · exact htimes.trans (finalize_sameTimes t' i)
    · exact htimes

theorem changes_finish (ht : t.Rooted) (i : ℕ)
    (ho : orderly → ∀ s, t.get? i = some s → s.isFinished = false →
      ∀ c ∈ t.children i, c.isFinished = true) :
    Changes now orderly t (t.finish b i now) := by
  rcases t.finish_cases b i now with he | ⟨s,hs,hn⟩
  · rw [he]
  · obtain ⟨s',halike,hrest,-⟩ := exists_countUp b now orderly ht hs hn
    have hup : Changes now orderly _ _ := Quiets.changes (quiets_countUp ht hs hn halike)
    exact .head (.stop hs hn halike fun h => ho h s hs hn) (hup.trans hrest)

theorem isFinished_finish (b : Backtrace) (now : Time) (ht : t.Rooted) (hs : t.get? i = some s) :
    ∃ u, (t.finish b i now).get? i = some u ∧ u.isFinished = true := by
  cases hn : s.isFinished with
  | true => exact ⟨s,by simp only [finish,hs,hn,if_true],hn⟩
  | false =>
    obtain ⟨s',halike,-,htimes⟩ := exists_countUp b now False ht hs hn
    exact htimes.isFinished_of_endSegment ht hs halike

theorem isFinished_of_finish (ht : t.Rooted) {j : ℕ} {u : Segment}
    (hu : (t.finish b i now).get? j = some u) (hf : u.isFinished = true) (hj : j ≠ i) :
    ∃ s, t.get? j = some s ∧ s.isFinished = true := by
  rcases t.finish_cases b i now with he | ⟨s,hs,hn⟩
  · exact ⟨u,he ▸ hu,hf⟩
  · obtain ⟨s',halike,-,htimes⟩ := exists_countUp b now False ht hs hn
    obtain ⟨v,hv,htv⟩ := htimes.symm.get? hu
    rw [← Segment.isFinished_of_times htv] at hf
    obtain ⟨w,hw,⟨-,rfl⟩ | ⟨-,rfl⟩⟩ := exists_of_endSegment ht hs halike.parent hv hj
    · rw [Segment.childComplete_eq] at hf
      exact ⟨w,hw,hf⟩
    · exact ⟨v,hw,hf⟩

theorem size_finish (ht : t.Rooted) (b : Backtrace) (i : ℕ) (now : Time) :
    (t.finish b i now).size = t.size := by
  rcases t.finish_cases b i now with he | ⟨s,hs,hn⟩
  · rw [he]
  · obtain ⟨s',-,-,htimes⟩ := exists_countUp b now False ht hs hn
    rw [htimes.size,size_endSegment]

theorem Rooted.finish (ht : t.Rooted) (b : Backtrace) (i : ℕ) (now : Time) :
    (t.finish b i now).Rooted := by
  have hchanges : Changes now False t (t.finish b i now) := changes_finish ht i False.elim
  exact Changes.rooted ht hchanges

theorem later_finish (ht : t.Rooted) (b : Backtrace) (i : ℕ) (now : Time) :
    t.Later (t.finish b i now) := by
  have hchanges : Changes now False t (t.finish b i now) := changes_finish ht i False.elim
  intro j s hs
  exact Changes.later ht hchanges hs

theorem exists_of_finish (ht : t.Rooted) {j : ℕ} {u : Segment}
    (hu : (t.finish b i now).get? j = some u) : ∃ s, t.get? j = some s ∧ s.Later u :=
  exists_of_later (later_finish ht b i now) (size_finish ht b i now) hu

end TraceEngine.SegmentTree
