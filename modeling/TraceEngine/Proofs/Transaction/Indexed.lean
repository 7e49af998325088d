import TraceEngine.Proofs.Segment.Indexed
import TraceEngine.Proofs.Transaction.Current

/-! Runs of a transaction with every look-up of a segment written out. No look-up fails, whatever is called with
whatever ids, and every way up from a late end is done in no more turns than there are segments. -/
namespace TraceEngine

open SegmentTree (Placed Passage)

/-- Does one thing after another, where each may fail, and keeps the walks that were made. -/
def passAll {σ ι : Type} (f : σ → ι → Option (List Walk × σ)) (s : σ) : List ι → Option (List Walk × σ)
  | [] => some ([],s)
  | i::l => do
    let (walks,s) ← f s i
    let (more,s) ← passAll f s l
    return (walks ++ more,s)

/-- If no step fails in a tree that is as it should be and has the places for it, then no sequence of steps does. -/
theorem passAll_eq {σ ι : Type} {f : σ → ι → Option (List Walk × σ)} {g : σ → ι → σ} (tree : σ → SegmentTree)
    {n : ι → ℕ} {l : List ι} (hstep : ∀ {s} i, (tree s).Placed → n i ≤ (tree s).size →
      ∃ walks, f s i = some (walks,g s i) ∧ Passage (tree s) (tree (g s i)) walks)
    {s : σ} (h : (tree s).Placed) (hroom : ∀ i ∈ l, n i ≤ (tree s).size) :
    ∃ walks, passAll f s l = some (walks,l.foldl g s) ∧ Passage (tree s) (tree (l.foldl g s)) walks := by
  induction l generalizing s with
  | nil => exact ⟨[],rfl,.refl h⟩
  | cons i l ih =>
    obtain ⟨hi,hl⟩ := List.forall_mem_cons.mp hroom
    obtain ⟨walks,he,hpass⟩ := hstep i h hi
    have hlater : (tree s).Later (tree (g s i)) := hpass.later
    obtain ⟨more,he',hpass'⟩ := ih hpass.placed fun j hj => (hl j hj).trans hlater.size_le
    exact ⟨walks ++ more,by simp [passAll,he,he'],hpass.trans hpass'⟩

namespace Transaction

variable {t t' : Transaction} {op : Operation} {ops : List Operation} {id : ℕ}

def indexedStartSegment (t : Transaction) (name : String) (kind : SegmentKind) (o : SegmentOptions) :
    Option (List Walk × Transaction) :=
  if t.isFinished then some ([],t)
  else
    let parent := o.parent.getD t.tree.current
    match t.tree.get? parent with
    | none => some ([],t)
    | some _ =>
      let id := t.tree.size
      let s : Segment := { guid := o.guid, name, kind, start := o.start, unscopedMetrics := o.unscopedMetrics }
      let beyond := t.settings.segmentLimit ≤ id
      let s := if beyond then s.excludeFromSample else s
      let t := if beyond then t.limitReached else t
      (t.tree.indexedStart s parent o.parent.isNone).map fun tree => ([],{ t with tree })

def indexedFinishSegment (t : Transaction) (id : ℕ) (stop : Time) (frames : List String) :
    Option (List Walk × Transaction) :=
  match t.segment id with
  | .error _ => some ([],t)
  | .ok _ => (t.tree.indexedFinish (t.backtrace frames) id stop).map fun r => ([⟨id,r.1⟩],{ t with tree := r.2 })

/-- Looks a segment up once more after its id was found to be good. -/
def indexedAgain (t : Transaction) (id : ℕ) (op : Operation) : Option (List Walk × Transaction) :=
  match t.segment id with
  | .error _ => some ([],t.apply op)
  | .ok _ => (t.tree.get? id).map fun _ => ([],t.apply op)

/-- The segments that are named in the warning about a segment. -/
def warnedOf? (t : SegmentTree) (id : ℕ) : Option (List Segment) := do
  let s ← t.get? id
  match s.parent with
  | none => return [s]
  | some parent => return [s,← t.get? parent]

def indexedForceFinish (stop : Time) (frames : List String) (t : Transaction) (id : ℕ) :
    Option (List Walk × Transaction) := do
  let _ ← warnedOf? t.tree id
  let (passed,tree) ← t.tree.indexedFinish (t.backtrace frames) id stop
  return ([⟨id,passed⟩],{ t.write [t.unfinishedRecord id] with tree })

def indexedForceIfRunning (stop : Time) (frames : List String) (t : Transaction) (id : ℕ) :
    Option (List Walk × Transaction) := do
  let s ← t.tree.get? id
  if s.isFinished then return ([],t) else t.indexedForceFinish stop frames id

def indexedFinalizeByForce (stop : Time) (frames : List String) (t : Transaction) (id : ℕ) :
    Option (List Walk × Transaction) := do
  let s ← t.tree.get? id
  if s.finalized then return ([],t)
  else
    let (walks,t) ← t.indexedForceIfRunning stop frames id
    let tree ← t.tree.indexedFinalize id
    return (walks,{ t with tree })

def indexedEnd (t : Transaction) (stop : Time) (frames : List String) (chance : Chance) :
    Option (List Walk × Transaction) :=
  if t.isFinished then some ([],t)
  else do
    let (walks,t) ← passAll (indexedForceIfRunning stop frames) t t.tree.places
    let (passed,tree) ← t.tree.indexedFinish (t.backtrace frames) 0 stop
    let (more,t) ← passAll (indexedFinalizeByForce stop frames) { t with tree } (List.range tree.size)
    let root ← t.tree.get? 0
    return (walks ++ [⟨0,passed⟩] ++ more,({ t with stop := root.stop }.decide chance).2)

/-- The operations as they look segments up. An id that is not passed in, but stands in the transaction itself, is
looked up as it is. -/
def indexedApply (t : Transaction) : Operation → Option (List Walk × Transaction)
  | .startNamed name o =>
    match required "name" name with
    | .error _ => some ([],t)
    | .ok name => t.indexedStartSegment name .generic o
  | .startKind kind o => t.indexedStartSegment (kind.metricName?.getD "") kind o
  | .finishSegment id stop frames => t.indexedFinishSegment id stop frames
  | .setHostHeader id host => t.indexedAgain id (.setHostHeader id host)
  | .noticeError id error => t.indexedAgain id (.noticeError id error)
  | .insertHeaders c now chance => (t.tree.get? t.tree.current).map fun _ => ([],t.apply (.insertHeaders c now chance))
  | .finish stop frames chance => t.indexedEnd stop frames chance
  | op => some ([],t.apply op)

def indexedRun (t : Transaction) (ops : List Operation) : Option (List Walk × Transaction) :=
  passAll indexedApply t ops

theorem indexedStartSegment_eq (t : Transaction) (name : String) (kind : SegmentKind) (o : SegmentOptions) :
    t.indexedStartSegment name kind o = some ([],t.after ((t.startSegment name kind o).map (·.2))) := by
  simp only [indexedStartSegment,startSegment]
  cases t.isFinished with
  | true => rfl
  | false =>
    cases hq : t.tree.get? (o.parent.getD t.tree.current) with
    | none => rfl
    | some q =>
      have hlt := SegmentTree.lt_size_of_get? hq
      simp only [Bool.false_eq_true,if_false]
      split
      · rw [t.unmoved_limitReached.tree,SegmentTree.indexedStart_eq hlt]
        rfl
      · rw [SegmentTree.indexedStart_eq hlt]
        rfl

theorem passage_startSegment (h : t.tree.Placed) (name : String) (kind : SegmentKind) (o : SegmentOptions) :
    Passage t.tree (t.after ((t.startSegment name kind o).map (·.2))).tree [] := by
  cases hr : t.startSegment name kind o with
  | error e => exact .refl h
  | ok r =>
    obtain ⟨-,q,s,hq,hs,-,-,htree,-⟩ := startSegment_ok hr
    have hpass := SegmentTree.passage_start h o.parent.isNone hq hs
    exact htree ▸ hpass

theorem passage_unmoved (h : t.tree.Placed) (hu : t.Unmoved t') : Passage t.tree t'.tree [] := by
  rw [hu.tree]
  exact .refl h

theorem passage_modify (h : t.tree.Placed) (id : ℕ) {f : Segment → Segment} (hf : ∀ s : Segment, s.Alike (f s)) :
    Passage t.tree (t.tree.modify id f) [] :=
  SegmentTree.passage_quiet h (.retouch id fun s _ => hf s) rfl

theorem indexedFinishSegment_eq (h : t.tree.Placed) (id : ℕ) (stop : Time) (frames : List String) :
    ∃ walks, t.indexedFinishSegment id stop frames = some (walks,t.after (t.finishSegment id stop frames)) ∧
      Passage t.tree (t.after (t.finishSegment id stop frames)).tree walks := by
  simp only [indexedFinishSegment,finishSegment,segment_eq]
  cases hs : t.tree.get? id with
  | none => exact ⟨[],rfl,.refl h⟩
  | some s =>
    obtain ⟨passed,he,hpass⟩ :=
      SegmentTree.passage_finish h (t.backtrace frames) (SegmentTree.lt_size_of_get? hs) stop
    exact ⟨[⟨id,passed⟩],by simp only [he]; rfl,hpass⟩

theorem indexedAgain_eq (t : Transaction) (id : ℕ) (op : Operation) :
    t.indexedAgain id op = some ([],t.apply op) := by
  simp only [indexedAgain,segment_eq]
  cases t.tree.get? id <;> rfl

theorem exists_warnedOf (h : t.tree.Rooted) (hid : id < t.tree.size) : ∃ l, warnedOf? t.tree id = some l := by
  obtain ⟨s,hs⟩ := SegmentTree.exists_get? hid
  cases hp : s.parent with
  | none => exact ⟨[s],by simp [warnedOf?,hs,hp]⟩
  | some p =>
    obtain ⟨q,hq⟩ := h.exists_parent hs hp
    exact ⟨[s,q],by simp [warnedOf?,hs,hp,hq]⟩

theorem indexedForceFinish_eq (h : t.tree.Placed) (hid : id < t.tree.size) (stop : Time) (frames : List String) :
    ∃ walks, t.indexedForceFinish stop frames id = some (walks,t.forceFinish stop frames id) ∧
      Passage t.tree (t.forceFinish stop frames id).tree walks := by
  obtain ⟨l,hl⟩ := exists_warnedOf h.rooted hid
  obtain ⟨passed,he,hpass⟩ := SegmentTree.passage_finish h (t.backtrace frames) hid stop
  refine ⟨[⟨id,passed⟩],?_,hpass⟩
  simp only [indexedForceFinish,hl,he,Option.bind_eq_bind,Option.bind_some]
  rfl

theorem indexedForceIfRunning_eq (h : t.tree.Placed) (hid : id < t.tree.size) (stop : Time) (frames : List String) :
    ∃ walks, t.indexedForceIfRunning stop frames id = some (walks,t.forceIfRunning stop frames id) ∧
      Passage t.tree (t.forceIfRunning stop frames id).tree walks := by
  obtain ⟨s,hs⟩ := SegmentTree.exists_get? hid
  have hruns : t.tree.runs id = !s.isFinished := by simp [SegmentTree.runs,hs]
  simp only [indexedForceIfRunning,forceIfRunning,hs,hruns,Option.bind_eq_bind,Option.bind_some]
  cases hf : s.isFinished with
  | true => exact ⟨[],rfl,.refl h⟩
  | false => exact indexedForceFinish_eq h hid stop frames

theorem indexedFinalizeByForce_eq (h : t.tree.Placed) (hid : id < t.tree.size) (stop : Time) (frames : List String) :
    ∃ walks, t.indexedFinalizeByForce stop frames id = some (walks,t.finalizeByForce stop frames id) ∧
      Passage t.tree (t.finalizeByForce stop frames id).tree walks := by
  obtain ⟨s,hs⟩ := SegmentTree.exists_get? hid
  have hresult : t.tree.hasResult id = s.finalized := by simp [SegmentTree.hasResult,hs]
  simp only [indexedFinalizeByForce,finalizeByForce,hs,hresult,Option.bind_eq_bind,Option.bind_some]
  cases hz : s.finalized with
  | true => exact ⟨[],rfl,.refl h⟩
  | false =>
    obtain ⟨walks,he,hpass⟩ := indexedForceIfRunning_eq h hid stop frames
    have hlater : t.tree.Later (t.forceIfRunning stop frames id).tree := hpass.later
    obtain ⟨u,hu⟩ := SegmentTree.exists_get? (hid.trans_le hlater.size_le)
    have hresults := hpass.trans (SegmentTree.passage_finalize hpass.placed id)
    rw [List.append_nil] at hresults
    refine ⟨walks,?_,hresults⟩
    simp only [Bool.false_eq_true,if_false,he,Option.bind_some,SegmentTree.indexedFinalize_eq hu]
    rfl

theorem indexedEnd_eq (h : t.tree.Placed) (stop : Time) (frames : List String) (chance : Chance) :
    ∃ walks, t.indexedEnd stop frames chance = some (walks,(t.finish stop frames chance).2) ∧
      Passage t.tree (t.finish stop frames chance).2.tree walks := by
  rw [finish_eq_finishInTurn h.rooted]
  simp only [indexedEnd,finishInTurn]
  cases hopen : t.isFinished with
  | true => exact ⟨[],rfl,.refl h⟩
  | false =>
    obtain ⟨walks,hforce,hpass⟩ := passAll_eq (fun t : Transaction => t.tree) (g := forceIfRunning stop frames)
      (n := (· + 1)) (l := t.tree.places) (fun i hp hi => indexedForceIfRunning_eq hp hi stop frames) h
      fun i hi => (SegmentTree.mem_places.mp hi).2
    generalize t.tree.places.foldl (forceIfRunning stop frames) t = u at hforce hpass ⊢
    obtain ⟨passed,hroot,hpass'⟩ :=
      SegmentTree.passage_finish hpass.placed (u.backtrace frames) hpass.placed.rooted.nonempty stop
    generalize u.tree.finish (u.backtrace frames) 0 stop = tree at hroot hpass' ⊢
    obtain ⟨more,hfinal,hpass''⟩ := passAll_eq (fun t : Transaction => t.tree) (g := finalizeByForce stop frames)
      (n := (· + 1)) (l := List.range tree.size) (s := { u with tree })
      (fun i hp hi => indexedFinalizeByForce_eq hp hi stop frames) hpass'.placed fun i hi => List.mem_range.mp hi
    generalize (List.range tree.size).foldl (finalizeByForce stop frames) { u with tree } = v at hfinal hpass'' ⊢
    obtain ⟨s,hs⟩ := SegmentTree.exists_get? hpass''.placed.rooted.nonempty
    refine ⟨walks ++ [⟨0,passed⟩] ++ more,?_,?_⟩
    · simp only [Bool.false_eq_true,if_false,hforce,hroot,hfinal,hs,Option.bind_eq_bind,Option.bind_some]
      rfl
    · simp only [Bool.false_eq_true,if_false,(unmoved_decide _ chance).tree]
      exact (hpass.trans hpass').trans hpass''

theorem indexedApply_eq (h : t.tree.Placed) (op : Operation) :
    ∃ walks, t.indexedApply op = some (walks,t.apply op) ∧ Passage t.tree (t.apply op).tree walks := by
  cases op with
  | rename | decide | setForcePersist | setSyntheticsId | acceptHeaders | acceptContext | requestHeaders =>
    exact ⟨[],rfl,passage_unmoved h (unmoved_apply rfl)⟩
  | insertHeaders c now chance =>
    obtain ⟨s,hs⟩ := SegmentTree.exists_get? h.current
    exact ⟨[],by simp only [indexedApply,hs,Option.map_some],passage_unmoved h (unmoved_apply rfl)⟩
  | startNamed name o =>
    simp only [indexedApply,apply,startNamed]
    cases required "name" name with
    | error e => exact ⟨[],rfl,.refl h⟩
    | ok name => exact ⟨[],t.indexedStartSegment_eq name .generic o,passage_startSegment h name .generic o⟩
  | startKind kind o =>
    exact ⟨[],t.indexedStartSegment_eq _ kind o,passage_startSegment h _ kind o⟩
  | finishSegment id stop frames => exact indexedFinishSegment_eq h id stop frames
  | setCurrent id =>
    exact ⟨[],rfl,onSegment (P := fun u => Passage t.tree u.tree []) (.refl h) id
      fun s hs => SegmentTree.passage_move h (SegmentTree.lt_size_of_get? hs)⟩
  | changeSegment id change =>
    exact ⟨[],rfl,onSegment (P := fun u => Passage t.tree u.tree []) (.refl h) id
      fun s hs => passage_modify h id (alike_change change)⟩
  | setHostHeader id host =>
    exact ⟨[],t.indexedAgain_eq id _,onSegment (P := fun u => Passage t.tree u.tree []) (.refl h) id
      fun s hs => passage_modify h id (alike_setHostHeader · host)⟩
  | noticeError id error =>
    refine ⟨[],t.indexedAgain_eq id _,onSegment (P := fun u => Passage t.tree u.tree []) (.refl h) id fun s hs => ?_⟩
    cases t.settings.highSecurity with
    | true => exact .refl h
    | false =>
      have hf : ∀ s : Segment, s.Alike { s with error := some error } :=
        fun s => ⟨rfl,rfl,rfl,rfl,rfl,rfl,rfl,rfl,rfl,rfl⟩
      cases s.error <;> exact passage_modify h id hf
  | finish stop frames chance => exact indexedEnd_eq h stop frames chance

theorem Fresh.placed (h : t.Fresh) : t.tree.Placed := by
  refine ⟨h.rooted,?_⟩
  obtain ⟨name,guid,rootGuid,traceId,start,settings,decider,rfl⟩ := h
  exact Nat.one_pos

/-- After any operations on a transaction, with whatever ids and times, the root has no parent, every other segment has
one that stands before it, and the current segment is one of the segments. No operation of the run looked up a segment
that there is not, and no way up from a late end took more turns than there were segments: those that it passed are one
above the other, from the one above the parent of the segment that ended, and none comes twice. -/
theorem Fresh.indexedRun_eq_some (h : t.Fresh) (ops : List Operation) :
    (t.run ops).tree.parent? 0 = none ∧
      (∀ i, 0 < i → i < (t.run ops).tree.size → ∃ p < i, (t.run ops).tree.parent? i = some p) ∧
      (t.run ops).tree.current < (t.run ops).tree.size ∧
      ∃ walks, t.indexedRun ops = some (walks,t.run ops) ∧
        ∀ w ∈ walks, w.passed <+: ((t.run ops).tree.ancestors w.segment).tail ∧ w.passed.Nodup := by
  obtain ⟨walks,hrun,hpass⟩ := passAll_eq (fun t : Transaction => t.tree) (n := fun _ => 0) (l := ops)
    (fun op hp _ => indexedApply_eq hp op) h.placed fun _ _ => Nat.zero_le _
  have hplaced : (t.run ops).tree.Placed := hpass.placed
  refine ⟨hplaced.parent?_root,fun i => hplaced.exists_parent,hplaced.current,walks,hrun,fun w hw => ?_⟩
  obtain ⟨-,habove⟩ := hpass.upward w hw
  have hdescending := ((t.run ops).tree.ancestors_pairwise w.segment).tail
  exact ⟨habove,(hdescending.sublist habove.sublist).imp fun h => h.ne'⟩

/-- Each segment is ended before the one below it. -/
def endedDownwards : List Operation :=
  [.startNext 1,.startNext 2,.startNext 3,.stopAt 1 4,.stopAt 2 5,.stopAt 3 6]

theorem indexedRun_eq_some_endedDownwards : plain.Fresh ∧
    (plain.indexedRun endedDownwards).map (·.1) = some [⟨1,[]⟩,⟨2,[0]⟩,⟨3,[1,0]⟩] ∧
    ∃ walks, plain.indexedRun endedDownwards = some (walks,plain.run endedDownwards) ∧
      ∀ w ∈ walks, w.passed <+: ((plain.run endedDownwards).tree.ancestors w.segment).tail ∧ w.passed.Nodup :=
  ⟨plain_fresh,by decide +kernel,(Fresh.indexedRun_eq_some plain_fresh endedDownwards).2.2.2⟩

end Transaction

end TraceEngine
