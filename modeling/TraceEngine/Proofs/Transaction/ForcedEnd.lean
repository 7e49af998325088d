import TraceEngine.Proofs.Transaction.Checked

/-! The end of a transaction in single steps. Its places are walked through from the newest on; where a
segment still runs it is made to end, with a warning. Then the root ends, and each segment is finalized,
where once more it would be made to end if it still ran. All of it is done unless there are times that
together exceed the longest duration. -/
namespace TraceEngine

namespace SegmentTree

def runs (t : SegmentTree) (i : ℕ) : Bool := (t.get? i).any (!·.isFinished)

/-- All places but that of the root, the newest first. -/
def places (t : SegmentTree) : List ℕ := (List.range' 1 (t.size-1)).reverse

variable {t t' : SegmentTree} {now : Time} {b : Backtrace} {i j : ℕ}

theorem runs_eq_true : t.runs i = true ↔ ∃ s, t.get? i = some s ∧ s.isFinished = false := by
  simp [runs,Option.any_eq_true]

theorem mem_places : i ∈ t.places ↔ 0 < i ∧ i < t.size := by
  rw [places,List.mem_reverse,List.mem_range'_1]
  omega

theorem places_descending (t : SegmentTree) : t.places.Pairwise (· > ·) := by
  rw [places,List.pairwise_reverse]
  exact List.pairwise_lt_range'

theorem places_nodup (t : SegmentTree) : t.places.Nodup :=
  t.places_descending.imp fun h => h.ne'

theorem unfinished_eq (t : SegmentTree) : t.unfinished = t.places.filter t.runs := by
  rw [unfinished,places,List.filter_reverse]
  congr 1
  cases t.size with
  | zero => rfl
  | succ n =>
    rw [List.range_eq_range',List.range'_succ,List.filter_cons_of_neg (by simp)]
    refine List.filter_congr fun i hi => ?_
    have hpos : 0 < i := (List.mem_range'_1.mp hi).1
    simp [runs,hpos]

theorem runs_of_later (h : t.Later t') (hsize : t'.size = t.size) (hr : t'.runs i = true) :
    t.runs i = true := by
  obtain ⟨u,hu,hn⟩ := runs_eq_true.mp hr
  obtain ⟨s,hs,hl⟩ := exists_of_later h hsize hu
  refine runs_eq_true.mpr ⟨s,hs,?_⟩
  by_contra hf
  simp [hl.isFinished (by simpa using hf)] at hn

theorem ended_of_later (h : t.Later t') (hsize : t'.size = t.size) (hn : t.runs i = false) :
    t'.runs i = false := by
  by_contra hr
  simp [runs_of_later h hsize (by simpa using hr)] at hn

theorem runs_finish (ht : t.Rooted) (b : Backtrace) (now : Time) (h : j ≠ i) :
    (t.finish b i now).runs j = t.runs j := by
  rw [Bool.eq_iff_iff]
  refine ⟨runs_of_later (later_finish ht b i now) (size_finish ht b i now),fun hr => ?_⟩
  obtain ⟨s,hs,hn⟩ := runs_eq_true.mp hr
  obtain ⟨u,hu,-⟩ := later_finish ht b i now hs
  refine runs_eq_true.mpr ⟨u,hu,?_⟩
  by_contra hf
  obtain ⟨v,hv,hvf⟩ := isFinished_of_finish ht hu (by simpa using hf) h
  cases get?_inj hs hv
  simp [hn] at hvf

theorem runs_finish_self (ht : t.Rooted) (b : Backtrace) (i : ℕ) (now : Time) :
    (t.finish b i now).runs i = false := by
  rw [runs,Option.any_eq_false]
  intro u hu
  obtain ⟨s,hs,-⟩ := exists_of_finish ht hu
  obtain ⟨v,hv,hf⟩ := isFinished_finish b now ht hs
  cases get?_inj hu hv
  simp [hf]

end SegmentTree

namespace Transaction

variable {t t' : Transaction} {l : List ℕ}

def forceFinish (stop : Time) (frames : List String) (t : Transaction) (id : ℕ) : Transaction :=
  { t.write [t.unfinishedRecord id] with tree := t.tree.finish (t.backtrace frames) id stop }

def forceIfRunning (stop : Time) (frames : List String) (t : Transaction) (id : ℕ) : Transaction :=
  if t.tree.runs id then t.forceFinish stop frames id else t

/-- Finalizes a segment that has no result yet, and makes it end before if it runs. -/
def finalizeByForce (stop : Time) (frames : List String) (t : Transaction) (id : ℕ) : Transaction :=
  if t.tree.hasResult id then t
  else
    let t := t.forceIfRunning stop frames id
    { t with tree := t.tree.finalize id }

/-- The end of a transaction in single steps. -/
def finishInTurn (t : Transaction) (stop : Time) (frames : List String) (chance : Chance) :
    Bool × Transaction :=
  if t.isFinished then (false,t)
  else
    let t := t.tree.places.foldl (forceIfRunning stop frames) t
    let t := { t with tree := t.tree.finish (t.backtrace frames) 0 stop }
    let t := (List.range t.tree.size).foldl (finalizeByForce stop frames) t
    let t := { t with stop := (t.tree.get? 0).bind (·.stop) }
    (true,(t.decide chance).2)

/-- A warning names segments, and names are not changed by the ends of segments. -/
theorem unfinishedRecord_of_outline (hname : t'.name = t.name) (h : t'.tree.outline = t.tree.outline) :
    t'.unfinishedRecord = t.unfinishedRecord := by
  have hnames (j : ℕ) : (t'.tree.get? j).map (·.name) = (t.tree.get? j).map (·.name) :=
    SegmentTree.map_get?_of_outline (fun _ => rfl) h j
  have hparent (j : ℕ) : (t'.tree.get? j).bind (·.parent) = (t.tree.get? j).bind (·.parent) := by
    have hmap := SegmentTree.map_get?_of_outline (g := (·.parent)) (fun _ => rfl) h j
    simpa [Option.bind_map] using congrArg (·.bind id) hmap
  funext id
  have hparentName : (((t'.tree.get? id).bind (·.parent)).bind t'.tree.get?).map (·.name) =
      (((t.tree.get? id).bind (·.parent)).bind t.tree.get?).map (·.name) := by
    rw [hparent,Option.map_bind,Option.map_bind]
    exact congrArg _ (funext hnames)
  simp only [unfinishedRecord,hnames,hparentName,hname]

/-- Each segment that runs ends in its turn, and no end adds to those that are made to end later. -/
theorem foldl_forceIfRunning (ht : t.tree.Rooted) (hl : l.Nodup) (stop : Time) (frames : List String) :
    l.foldl (forceIfRunning stop frames) t =
      { t.write ((l.filter t.tree.runs).map t.unfinishedRecord) with
        tree := (l.filter t.tree.runs).foldl (fun u i => u.finish (t.backtrace frames) i stop) t.tree } := by
  induction l generalizing t with
  | nil => simp [write]
  | cons i l ih =>
    obtain ⟨hi,hl'⟩ := List.nodup_cons.mp hl
    rw [List.foldl_cons,forceIfRunning]
    cases hr : t.tree.runs i with
    | false =>
      rw [List.filter_cons_of_neg (by simp [hr])]
      exact ih ht hl'
    | true =>
      -- The end of this segment touches neither those that are still to come nor their warnings.
      have hruns : l.filter (t.forceFinish stop frames i).tree.runs = l.filter t.tree.runs :=
        List.filter_congr fun j hj =>
          SegmentTree.runs_finish ht _ stop fun hji => hi (hji ▸ hj)
      have hrecord : (t.forceFinish stop frames i).unfinishedRecord = t.unfinishedRecord :=
        unfinishedRecord_of_outline rfl (SegmentTree.outline_finish _ _ _ _)
      rw [if_pos rfl,ih (ht.finish _ i stop) hl',hruns,hrecord,
        List.filter_cons_of_pos hr,List.map_cons,List.foldl_cons]
      simp only [forceFinish,write,List.append_assoc,List.singleton_append]
      rfl

theorem ended_forceIfRunning (ht : t.tree.Rooted) (stop : Time) (frames : List String) (i : ℕ) :
    (t.forceIfRunning stop frames i).tree.Rooted ∧
      t.tree.Later (t.forceIfRunning stop frames i).tree ∧
      (t.forceIfRunning stop frames i).tree.size = t.tree.size ∧
      (t.forceIfRunning stop frames i).tree.runs i = false := by
  unfold forceIfRunning
  split
  · exact ⟨ht.finish _ i stop,SegmentTree.later_finish ht _ i stop,
      SegmentTree.size_finish ht _ i stop,SegmentTree.runs_finish_self ht _ i stop⟩
  · rename_i hn
    exact ⟨ht,SegmentTree.Later.refl t.tree,rfl,by simpa using hn⟩

theorem ended_foldl_forceIfRunning (ht : t.tree.Rooted) (stop : Time) (frames : List String) (l : List ℕ) :
    (l.foldl (forceIfRunning stop frames) t).tree.Rooted ∧
      t.tree.Later (l.foldl (forceIfRunning stop frames) t).tree ∧
      (l.foldl (forceIfRunning stop frames) t).tree.size = t.tree.size ∧
      ∀ i ∈ l, (l.foldl (forceIfRunning stop frames) t).tree.runs i = false := by
  induction l generalizing t with
  | nil => exact ⟨ht,SegmentTree.Later.refl t.tree,rfl,by simp⟩
  | cons i l ih =>
    obtain ⟨hfirst,hlater,hsize,hended⟩ := ended_forceIfRunning ht stop frames i
    obtain ⟨hrest,hlater',hsize',hended'⟩ := ih hfirst
    refine ⟨hrest,SegmentTree.Later.trans hlater hlater',hsize'.trans hsize,fun j hj => ?_⟩
    rcases List.mem_cons.mp hj with rfl | hj
    · exact SegmentTree.ended_of_later hlater' hsize' hended
    · exact hended' j hj

theorem runs_foldl_forceIfRunning (ht : t.tree.Rooted) {i : ℕ} (hi : i ∉ l) (stop : Time)
    (frames : List String) :
    (l.foldl (forceIfRunning stop frames) t).tree.runs i = t.tree.runs i := by
  induction l generalizing t with
  | nil => rfl
  | cons j l ih =>
    obtain ⟨hij,hi'⟩ := not_or.mp (mt List.mem_cons.mpr hi)
    rw [List.foldl_cons,ih (ended_forceIfRunning ht stop frames j).1 hi',forceIfRunning]
    split
    · exact SegmentTree.runs_finish ht _ stop hij
    · rfl

theorem finalizeByForce_of_ended {id : ℕ} (h : t.tree.runs id = false) (stop : Time)
    (frames : List String) :
    t.finalizeByForce stop frames id = { t with tree := t.tree.finalize id } := by
  unfold finalizeByForce
  split
  · rename_i hresult
    obtain ⟨s,hs,hz⟩ := SegmentTree.hasResult_eq_true.mp hresult
    have hsame : t.tree.finalize id = t.tree := by simp only [SegmentTree.finalize,hs,hz,if_true]
    rw [hsame]
  · rw [forceIfRunning,if_neg (by simp [h])]

theorem foldl_finalizeByForce (h : ∀ i, t.tree.runs i = false) (stop : Time) (frames : List String)
    (l : List ℕ) :
    l.foldl (finalizeByForce stop frames) t = { t with tree := l.foldl SegmentTree.finalize t.tree } := by
  induction l generalizing t with
  | nil => rfl
  | cons i l ih =>
    rw [List.foldl_cons,finalizeByForce_of_ended (h i) stop frames]
    have hsize := (SegmentTree.finalize_sameTimes t.tree i).size
    exact ih fun j => SegmentTree.ended_of_later (SegmentTree.later_finalize t.tree i) hsize (h j)

theorem finish_eq_finishInTurn (ht : t.tree.Rooted) (stop : Time) (frames : List String) (chance : Chance) :
    t.finish stop frames chance = t.finishInTurn stop frames chance := by
  unfold Transaction.finish finishInTurn
  split
  · rfl
  · obtain ⟨-,hfinished⟩ := SegmentTree.changes_finishAll (t.backtrace frames) stop False ht
    have hended : ∀ i, (t.tree.finishAll (t.backtrace frames) stop).runs i = false := by
      intro i
      rw [SegmentTree.runs,Option.any_eq_false]
      exact fun s hs => by simp [hfinished hs]
    -- After the walk and the end of the root nothing runs, so the second loop only finalizes.
    have hwalk := foldl_forceIfRunning ht t.tree.places_nodup stop frames
    have hrest := foldl_finalizeByForce (t := { t.write (t.tree.unfinished.map t.unfinishedRecord) with
        tree := t.tree.finishAll (t.backtrace frames) stop }) hended stop frames
      (List.range (t.tree.finishAll (t.backtrace frames) stop).size)
    rw [← SegmentTree.unfinished_eq] at hwalk
    simp only [hwalk]
    exact congrArg (fun u : Transaction =>
      (true,({ u with stop := (u.tree.get? 0).bind (·.stop) }.decide chance).2)) hrest.symm

/-- The warning about a segment that nobody ended. It names the segment, its parent and the transaction. -/
structure Warns (t : Transaction) (i : ℕ) (r : LogRecord) : Prop where
  level : r.level = .warn
  message : ∃ s p q, t.tree.get? i = some s ∧ s.parent = some p ∧ t.tree.get? p = some q ∧
    r.message = "Segment: " ++ s.name ++
      " was unfinished at the end of transaction. Timing information for this segment's " ++
      "parent " ++ q.name ++ " in " ++ t.name ++ " may be inaccurate."

theorem warns_unfinishedRecord (ht : t.tree.Rooted) {i : ℕ} {s : Segment} (hs : t.tree.get? i = some s)
    (hi : 0 < i) : Warns t i (t.unfinishedRecord i) where
  level := rfl
  message := by
    obtain ⟨p,hp⟩ := Option.ne_none_iff_exists'.mp (mt (ht.parent_none hs).mp hi.ne')
    obtain ⟨q,hq⟩ := ht.exists_parent hs hp
    refine ⟨s,p,q,hs,hp,hq,?_⟩
    simp only [unfinishedRecord,hs,Option.map_some,Option.getD_some,Option.bind_some,hp,hq,String.append_assoc]
    rfl

/-- What the end of a transaction makes of it. A segment that runs ends at the given time, or at its own
start if that is later, and no end is changed. The warnings are about the segments below the root that
run, the newest first. When the walk comes to a segment, and so before that can be made to end, all its
children have ended. -/
structure Ends (t : Transaction) (stop : Time) (frames : List String) (chance : Chance)
    (t' : Transaction) : Prop where
  isFinished : t'.isFinished = true
  stopped : t'.stop = (t'.tree.get? 0).bind (·.stop)
  sampling : t'.sampling = some (t.decide chance).1
  size : t'.tree.size = t.tree.size
  segments : ∀ {i s}, t.tree.get? i = some s → ∃ s', t'.tree.get? i = some s' ∧ s'.finalized = true ∧
    s'.start = s.start ∧ s'.stop = some (s.stop.getD (max stop s.start)) ∧
    (s.isFinished = true → s'.duration = s.duration)
  warnings : ∃ (forced : List ℕ) (written : List LogRecord), t'.records = t.records ++ written ∧
    List.Forall₂ (Warns t) forced written ∧ forced.Pairwise (· > ·) ∧
    ∀ i, i ∈ forced ↔ 0 < i ∧ ∃ s, t.tree.get? i = some s ∧ s.isFinished = false
  childrenFirst : ∀ {earlier i rest}, t.tree.places ++ [0] = earlier ++ i::rest →
    (earlier.foldl (forceIfRunning stop frames) t).tree.runs i = t.tree.runs i ∧
    ∀ c ∈ (earlier.foldl (forceIfRunning stop frames) t).tree.children i, c.isFinished = true

theorem records_decide (t : Transaction) (chance : Chance) : (t.decide chance).2.records = t.records := by
  unfold decide
  split <;> rfl

theorem decide_fst (hsampling : t'.sampling = t.sampling) (hdecider : t'.decider = t.decider)
    (htrace : t'.traceId = t.traceId) (chance : Chance) : (t'.decide chance).1 = (t.decide chance).1 := by
  rw [decide,decide,hsampling,hdecider,htrace]
  cases t.sampling <;> rfl

theorem exists_finish (hopen : t.isFinished = false) (stop : Time) (frames : List String) (chance : Chance) :
    ∃ u : Transaction, t.finish stop frames chance = (true,(u.decide chance).2) ∧
      u.sampling = t.sampling ∧ u.decider = t.decider ∧ u.traceId = t.traceId ∧
      u.records = t.records ++ t.tree.unfinished.map t.unfinishedRecord :=
  ⟨_,if_neg (by simp [hopen]),rfl,rfl,rfl,rfl⟩

theorem walk_split {earlier rest : List ℕ} {i : ℕ} (h : t.tree.places ++ [0] = earlier ++ i::rest) :
    i ∉ earlier ∧ ∀ j, i < j → j < t.tree.size → j ∈ earlier := by
  have hdescending : (earlier ++ i::rest).Pairwise (· > ·) := by
    rw [← h,List.pairwise_append]
    refine ⟨t.tree.places_descending,List.pairwise_singleton _ _,fun a ha b hb => ?_⟩
    rw [List.mem_singleton.mp hb]
    exact (SegmentTree.mem_places.mp ha).1
  obtain ⟨-,hrest,hearlier⟩ := List.pairwise_append.mp hdescending
  refine ⟨fun hi => lt_irrefl i (hearlier i hi i List.mem_cons_self),fun j hij hj => ?_⟩
  have hmem : j ∈ earlier ++ i::rest := by
    rw [← h]
    exact List.mem_append_left _ (SegmentTree.mem_places.mpr ⟨i.zero_le.trans_lt hij,hj⟩)
  rcases List.mem_append.mp hmem with hj | hj
  · exact hj
  · rcases List.mem_cons.mp hj with rfl | hj
    · exact absurd hij (lt_irrefl _)
    · exact absurd hij (Nat.lt_asymm ((List.pairwise_cons.mp hrest).1 j hj))

theorem Reckoned.ends (h : Reckoned t) (hopen : t.isFinished = false)
    (stop : Time) (frames : List String) (chance : Chance) :
    ∃ t', t.finish stop frames chance = (true,t') ∧ Ends t stop frames chance t' := by
  obtain ⟨u,he,hsampling,hdecider,htrace,hrecords⟩ := exists_finish hopen stop frames chance
  obtain ⟨htree,hstop,-⟩ := finish_of_open hopen stop frames chance
  have hf := isFinished_finish h.rooted stop frames chance
  have hclosed : Reckoned (t.finish stop frames chance).2 := h.apply (.finish stop frames chance)
  have hchanges := SegmentTree.changes_close (t.backtrace frames) stop False h.rooted
  rw [← htree] at hchanges hstop
  rw [he] at hf hclosed hchanges hstop
  refine ⟨_,he,⟨hf,hstop,?sampling,?size,?segments,?warnings,?childrenFirst⟩⟩
  case sampling => rw [sampling_decide,decide_fst hsampling hdecider htrace]
  case size =>
    have houtline := SegmentTree.outline_close t.tree (t.backtrace frames) stop
    rw [← htree,he] at houtline
    exact SegmentTree.size_of_outline houtline
  case segments =>
    intro i s hs
    obtain ⟨s',hs',hl,hend⟩ := SegmentTree.Changes.get? h.rooted hchanges hs
    obtain ⟨e,hstopped⟩ := Segment.exists_stop (hclosed.isFinished_of_ended hf hs')
    refine ⟨s',hs',hclosed.ended hf i s' hs',hl.start,?_,fun hsf => ?_⟩
    · rcases hend with hsame | ⟨hnone,hnew⟩
      · rw [← hsame,hstopped,Option.getD_some]
      · rw [hnew,hnone,Option.getD_none]
    · rw [Segment.duration,Segment.timeRange_of_times (hl.times_eq hsf),Segment.duration]
  case warnings =>
    have hwarns : List.Forall₂ (Warns t) t.tree.unfinished (t.tree.unfinished.map t.unfinishedRecord) := by
      rw [List.forall₂_map_right_iff]
      refine List.forall₂_same.mpr fun i hi => ?_
      obtain ⟨hpos,s,hs,-⟩ := SegmentTree.mem_unfinished.mp hi
      exact warns_unfinishedRecord h.rooted hs hpos
    exact ⟨_,_,(records_decide u chance).trans hrecords,hwarns,t.tree.unfinished_descending,
      fun i => SegmentTree.mem_unfinished⟩
  case childrenFirst =>
    intro earlier i rest hplaces
    -- Children stand behind their parent, and all that stands behind comes earlier in the walk.
    obtain ⟨hi,hearlier⟩ := walk_split hplaces
    obtain ⟨hrooted,-,hsize,hended⟩ :=
      ended_foldl_forceIfRunning h.rooted stop frames earlier
    refine ⟨runs_foldl_forceIfRunning h.rooted hi stop frames,fun c hc => ?_⟩
    obtain ⟨j,hj,hp⟩ := SegmentTree.mem_children.mp hc
    have hn := hended j (hearlier j (hrooted.parent_lt hj hp) (hsize ▸ SegmentTree.lt_size_of_get? hj))
    simpa [SegmentTree.runs,hj] using hn

/-- The end of a transaction that has not ended, which is made of the single steps. With checked
arithmetic it is the same, unless it fails; it does not fail if there is room for the durations of all
segments together. -/
structure Finishes (t : Transaction) (stop : Time) (frames : List String) (chance : Chance)
    (t' : Transaction) : Prop where
  finish : t.finish stop frames chance = (true,t')
  inTurn : t.finishInTurn stop frames chance = (true,t')
  ends : Ends t stop frames chance t'
  checked : Confirms (t.checkedFinish .allowed stop frames chance) (true,t')
  room : t'.tree.Room → t.checkedFinish .allowed stop frames chance = some (true,t')

/-- A transaction that is reached and has not ended ends when it is told to, with the warnings and the
order that belong to the end, if there is room for the durations of its segments. -/
theorem Fresh.finish_ends (h : t.Fresh) (ops : List Operation) (hopen : (t.run ops).isFinished = false)
    (stop : Time) (frames : List String) (chance : Chance) :
    ∃ t', Finishes (t.run ops) stop frames chance t' := by
  have hreckoned := h.reckoned.run ops
  obtain ⟨t',he,hends⟩ := hreckoned.ends hopen stop frames chance
  refine ⟨t',he,(finish_eq_finishInTurn hreckoned.rooted stop frames chance) ▸ he,hends,?checked,?room⟩
  case checked => exact he ▸ confirms_checkedFinish .allowed (t.run ops) stop frames chance
  case room =>
    intro hroom
    rw [← he]
    exact checkedFinish_eq .allowed (regular_run h.regular ops) stop frames chance (he ▸ hroom)

/-- Two segments that nobody ends, one of them below a segment that has ended, and one that starts late. -/
def abandoned : List Operation := [.startUnder 0 1,.startUnder 1 2,.stopAt 1 3,.startUnder 0 9]

theorem finish_ends_abandoned : (plain.run abandoned).isFinished = false ∧
    ∃ t', Finishes (plain.run abandoned) 6 [] ⟨fun _ => true,0⟩ t' ∧ t'.tree.Room ∧
      t'.tree.segments.toList.map (·.stop) = [some 6,some 3,some 6,some 9] ∧
      t'.records.map (·.message) =
        ["Segment: call was unfinished at the end of transaction. Timing information for this segment's " ++
            "parent plain in plain may be inaccurate.",
          "Segment: call was unfinished at the end of transaction. Timing information for this segment's " ++
            "parent call in plain may be inaccurate."] := by
  have hopen : (plain.run abandoned).isFinished = false := by decide +kernel
  obtain ⟨t',hfinish⟩ := Fresh.finish_ends plain_fresh abandoned hopen 6 [] ⟨fun _ => true,0⟩
  obtain rfl : ((plain.run abandoned).finish 6 [] ⟨fun _ => true,0⟩).2 = t' := congrArg Prod.snd hfinish.finish
  exact ⟨hopen,_,hfinish,by decide +kernel,by decide +kernel,by decide +kernel⟩

/-- Two children that start with the transaction and are told to end at the latest time. Each has all
of its duration to itself, and there is no room for both. -/
theorem finish_overflows :
    plain.checkedRun .allowed [.startUnder 0 0,.startUnder 0 0] = some (plain.run [.startUnder 0 0,.startUnder 0 0]) ∧
      (plain.run [.startUnder 0 0,.startUnder 0 0]).isFinished = false ∧
      (plain.run [.startUnder 0 0,.startUnder 0 0]).checkedFinish .allowed Time.longest [] ⟨fun _ => true,0⟩ =
        none :=
  ⟨rfl,by decide +kernel,Option.isNone_iff_eq_none.mp (by decide +kernel)⟩

end Transaction

end TraceEngine
