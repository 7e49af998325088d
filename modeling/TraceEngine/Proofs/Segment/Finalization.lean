import TraceEngine.Proofs.Segment.Frame

/-! The order in which segments get their results. A tree goes through many states; the segments that
are new among the finalized ones, state by state, are all that its metrics are made of. -/
namespace TraceEngine.SegmentTree

variable {t t' : SegmentTree} {now : Time} {b : Backtrace} {i j p : ℕ} {q s s' : Segment}
  {states : List SegmentTree}

theorem Results.totalTime_eq (h : t.Results) : t.totalTime =
    ((t.segments.toList.filter (·.finalized)).map (·.exclusive)).sum := by
  have hpending : ∀ s ∈ t.segments.toList, s.finalized = false → s.exclusive = 0 := by
    intro s hs hn
    obtain ⟨i,hi⟩ := mem_segments.mp hs
    exact h.pending hi hn
  rw [h.total,weigh]
  generalize t.segments.toList = l at hpending ⊢
  induction l with
  | nil => rfl
  | cons s l ih =>
    have hrest := ih fun u hu => hpending u (List.mem_cons_of_mem s hu)
    cases hz : s.finalized with
    | true => simp [hz,hrest]
    | false => simp [hz,hrest,hpending s List.mem_cons_self hz]

def Bounded (t : SegmentTree) : Prop :=
  ∀ i s, t.get? i = some s → s.finalized = true → s.exclusive ≤ s.duration

theorem Bounded.change {orderly : Prop} (ht : t.Rooted) (hr : t.Results) (h : t.Bounded)
    (hc : Change now orderly t t') : t'.Bounded := by
  intro i s' hs' hz'
  obtain ⟨s,hs,hl,hz | ⟨-,-,halike⟩⟩ := hc.finalized ht hs' hz'
  · rw [(hl.finalized hz).2,Segment.duration,
      Segment.timeRange_of_times (hl.times_eq (hr.ended hs hz))]
    exact h i s hs hz
  · rw [halike.exclusive,Segment.duration,Segment.timeRange_of_times halike.times_eq]
    exact (Nat.sub_le _ _).trans (Nat.sub_le _ _)

theorem Bounded.changes {orderly : Prop} (ht : t.Rooted) (hr : t.Results) (h : t.Bounded)
    (hc : Changes now orderly t t') : t'.Bounded := by
  induction hc with
  | refl => exact h
  | tail hc' hc ih => exact ih.change (Changes.rooted ht hc') (Changes.results ht hr hc') hc

def hasResult (t : SegmentTree) (i : ℕ) : Bool := (t.get? i).any (·.finalized)

theorem hasResult_eq_true : t.hasResult i = true ↔ ∃ s, t.get? i = some s ∧ s.finalized = true :=
  Option.any_eq_true _ _

theorem hasResult_eq_false :
    t.hasResult i = false ↔ ∀ s, t.get? i = some s → s.finalized = false := by
  rw [hasResult,Option.any_eq_false]

/-- The segments that have a result and had none in the state before. -/
def newResults (t t' : SegmentTree) : List (ℕ × Segment) :=
  (List.range t'.size).filterMap fun i =>
    ((t'.get? i).filter fun s => s.finalized && !t.hasResult i).map (i,·)

theorem mem_newResults {e : ℕ × Segment} : e ∈ t.newResults t' ↔
    t'.get? e.1 = some e.2 ∧ e.2.finalized = true ∧ t.hasResult e.1 = false := by
  obtain ⟨i,s⟩ := e
  simp only [newResults,List.mem_filterMap,List.mem_range,Option.map_eq_some_iff,
    Option.filter_eq_some_iff,Bool.and_eq_true,Bool.not_eq_true',Prod.mk.injEq]
  constructor
  · rintro ⟨j,-,u,⟨hu,hz,hold⟩,rfl,rfl⟩
    exact ⟨hu,hz,hold⟩
  · rintro ⟨hs,hz,hold⟩
    exact ⟨i,lt_size_of_get? hs,s,⟨hs,hz,hold⟩,rfl,rfl⟩

theorem newResults_nodup (t t' : SegmentTree) : ((t.newResults t').map Prod.fst).Nodup := by
  rw [newResults,List.map_filterMap]
  refine List.nodup_range.filterMap fun a c i ha hc => ?_
  simp only [Option.map_map,Option.mem_def,Option.map_eq_some_iff,Function.comp_apply] at ha hc
  obtain ⟨_,-,rfl⟩ := ha
  obtain ⟨_,-,rfl⟩ := hc
  rfl

theorem newResults_eq_nil (h : ∀ {i}, t'.hasResult i = true → t.hasResult i = true) :
    t.newResults t' = [] := by
  refine List.eq_nil_iff_forall_not_mem.mpr fun e he => ?_
  obtain ⟨hs,hz,hold⟩ := mem_newResults.mp he
  simp [h (hasResult_eq_true.mpr ⟨_,hs,hz⟩)] at hold

theorem newResults_eq_singleton (hs : t'.get? i = some s) (hz : s.finalized = true)
    (hold : t.hasResult i = false) (h : ∀ {j}, t'.hasResult j = true → j ≠ i → t.hasResult j = true) :
    t.newResults t' = [(i,s)] := by
  refine List.perm_singleton.mp ((List.perm_ext_iff_of_nodup
    (List.Nodup.of_map _ (newResults_nodup t t')) (List.nodup_singleton _)).mpr fun e => ?_)
  rw [List.mem_singleton,mem_newResults]
  constructor
  · rintro ⟨he,hez,heold⟩
    by_cases hei : e.1 = i
    · exact Prod.ext hei (get?_inj (hei ▸ he) hs)
    · simp [h (hasResult_eq_true.mpr ⟨_,he,hez⟩) hei] at heold
  · rintro rfl
    exact ⟨hs,hz,hold⟩

/-- A later tree in which no other segment has a result. -/
structure Awaiting (t t' : SegmentTree) : Prop where
  later : t.Later t'
  metrics : t'.metrics = t.metrics
  hasResult : ∀ {i}, t'.hasResult i = true → t.hasResult i = true

theorem Awaiting.refl (t : SegmentTree) : t.Awaiting t := ⟨Later.refl t,rfl,id⟩

theorem Awaiting.hasResult_eq (h : t.Awaiting t') (i : ℕ) : t'.hasResult i = t.hasResult i := by
  refine Bool.eq_iff_iff.mpr ⟨h.hasResult,fun hz => ?_⟩
  obtain ⟨s,hs,hz⟩ := hasResult_eq_true.mp hz
  obtain ⟨u,hu,hl⟩ := h.later hs
  exact hasResult_eq_true.mpr ⟨u,hu,(hl.finalized hz).1⟩

theorem awaiting_touch (ht : t.Rooted) (h : Touch t t') : t.Awaiting t' where
  later := h.quiet.later ht
  metrics := by cases h <;> rfl
  hasResult hz := by
    obtain ⟨u,hu,hz⟩ := hasResult_eq_true.mp hz
    obtain ⟨s,hs,hk⟩ := h.quiet.exists_get? ht hu
    exact hasResult_eq_true.mpr ⟨s,hs,hk.finalized ▸ hz⟩

theorem awaiting_start (ht : t.Rooted) (b : Bool) (hq : t.get? p = some q)
    (hs : ({ guid := s.guid, name := s.name, start := now } : Segment).Alike s) :
    t.Awaiting (t.start s p b) where
  later := later_start ht b hq hs
  metrics := rfl
  hasResult {j} hz := by
    obtain ⟨u,hu,hz⟩ := hasResult_eq_true.mp hz
    by_cases hj : j = t.size
    · subst hj
      cases get?_inj (get?_start_size (lt_size_of_get? hq) s b) hu
      have hn : s.finalized = false := hs.finalized
      simp [hn] at hz
    · obtain ⟨v,hv,-,he,-⟩ := exists_result_of_start (lt_size_of_get? hq) hu hj
      exact hasResult_eq_true.mpr ⟨v,hv,he ▸ hz⟩

/-- Until a segment is finalized its end gives no result. -/
theorem awaiting_countUp (ht : t.Rooted) (hs : t.get? i = some s) (hn : s.isFinished = false)
    (hs' : (s.stopAt now).Alike s') (ht' : t'.segments = (t.countUp i s').segments)
    (hmetrics : t'.metrics = (t.countUp i s').metrics) : t.Awaiting t' where
  later := by
    have hend : Changes now False t (t.countUp i s') :=
      .head (.stop hs hn hs' False.elim) (Quiets.changes (quiets_countUp ht hs hn hs'))
    intro j v hv
    rw [get?,ht']
    exact Changes.later ht hend hv
  metrics := by
    obtain ⟨l,hl⟩ := countUp_rest ht hs hs'.parent
    rw [hmetrics,hl]
  hasResult {j} hz := by
    obtain ⟨u,hu,hz⟩ := hasResult_eq_true.mp hz
    rw [get?,ht'] at hu
    exact hasResult_eq_true.mpr (finalized_of_countUp ht hs hn hs' hu hz)

/-- The metrics of a segment that has its result, unless it is not to record them. -/
def batch (e : ℕ × Segment) : List MetricRecord := if e.2.recordMetrics then e.2.metricRecords else []

theorem flatMap_batch (log : List (ℕ × Segment)) :
    log.flatMap batch = (log.filter (·.2.recordMetrics)).flatMap (·.2.metricRecords) := by
  induction log with
  | nil => rfl
  | cons e log ih => cases hr : e.2.recordMetrics <;> simp [batch,hr,ih]

/-- A step to a later tree, with the metrics of the segments that get results by it. -/
structure Step (t t' : SegmentTree) : Prop where
  later : t.Later t'
  metrics : t'.metrics = t.metrics ++ (t.newResults t').flatMap batch
  ended : ∀ {i s}, t'.get? i = some s → s.finalized = true → s.isFinished = true

theorem Awaiting.step (h : t.Awaiting t') (hr : t'.Results) : t.Step t' where
  later := h.later
  metrics := by rw [newResults_eq_nil h.hasResult,h.metrics,List.flatMap_nil,List.append_nil]
  ended := hr.ended

theorem Awaiting.trans_step {u : SegmentTree} (h : t.Awaiting t') (hs : t'.Step u) : t.Step u where
  later := Later.trans h.later hs.later
  metrics := by
    have hnew : t.newResults u = t'.newResults u := by simp only [newResults,h.hasResult_eq]
    rw [hnew,← h.metrics,hs.metrics]
  ended := hs.ended

theorem later_finalize (t : SegmentTree) (i : ℕ) : t.Later (t.finalize i) := by
  rcases t.finalize_cases i with he | ⟨s,hs,hn⟩
  · rw [he]
    exact Later.refl t
  · obtain ⟨-,-,s',hs',hget⟩ := get?_finalize hs hn
    intro j v hv
    by_cases hj : j = i
    · subst hj
      cases get?_inj hs hv
      exact ⟨s',(hget j).trans (if_pos rfl),(Segment.later_recordExclusive hn).trans hs'.later⟩
    · exact ⟨v,(hget j).trans ((if_neg hj).trans hv),Segment.Later.refl v⟩

theorem step_finalize (t : SegmentTree) (hr : (t.finalize i).Results) : t.Step (t.finalize i) := by
  rcases t.finalize_cases i with he | ⟨s,hs,hn⟩
  · rw [he] at hr ⊢
    exact (Awaiting.refl t).step hr
  · obtain ⟨ps,he⟩ := finalize_eq hs hn
    have hget : (t.finalize i).get? i = some { s.recordExclusive with parameters := ps } := by
      rw [he]
      exact (get?_modify t i _ i).trans (by rw [if_pos rfl,hs,Option.map_some])
    have hnew : t.newResults (t.finalize i) = [(i,{ s.recordExclusive with parameters := ps })] := by
      refine newResults_eq_singleton hget rfl (by simp [hasResult,hs,hn]) fun {j} hz hji => ?_
      rwa [hasResult,get?_finalize_ne hji] at hz
    refine ⟨later_finalize t i,?_,hr.ended⟩
    rw [hnew,List.flatMap_singleton,he]
    rfl

theorem step_finish (ht : t.Rooted) (hr : (t.finish b i now).Results) : t.Step (t.finish b i now) := by
  rcases t.finish_cases b i now with he | ⟨s,hs,hn⟩
  · rw [he] at hr ⊢
    exact (Awaiting.refl t).step hr
  · obtain ⟨s',t',halike,-,ht',he⟩ := finish_of_get? (b := b) hs hn now
    have hawait : t.Awaiting t' := awaiting_countUp ht hs hn halike (by rw [ht']) (by rw [ht'])
    rw [he] at hr ⊢
    split at hr
    · rename_i hrec
      rw [if_pos hrec]
      exact hawait.trans_step (step_finalize t' hr)
    · rename_i hrec
      rw [if_neg hrec]
      exact hawait.step hr

/-- The segments that get results while a tree goes through further states, each as it is then. -/
def finalizations (t : SegmentTree) : List SegmentTree → List (ℕ × Segment)
  | [] => []
  | t'::states => t.newResults t' ++ t'.finalizations states

/-- What is known of a list of results that a tree got on the way to a later one: each segment is there
once, as it was when it got its result, and the metrics are in the same order. -/
structure Recorded (t t' : SegmentTree) (log : List (ℕ × Segment)) : Prop where
  later : t.Later t'
  metrics : t'.metrics = t.metrics ++ log.flatMap batch
  nodup : (log.map Prod.fst).Nodup
  hasResult : ∀ {i}, t'.hasResult i = true ↔ t.hasResult i = true ∨ i ∈ log.map Prod.fst
  new : ∀ {i}, i ∈ log.map Prod.fst → t.hasResult i = false
  kept : ∀ {e}, e ∈ log → ∃ s, t'.get? e.1 = some s ∧ e.2.Later s ∧ e.2.finalized = true ∧
    e.2.isFinished = true

theorem Step.recorded (h : t.Step t') : t.Recorded t' (t.newResults t') where
  later := h.later
  metrics := h.metrics
  nodup := newResults_nodup t t'
  hasResult {i} := by
    simp only [hasResult_eq_true (t := t'),List.mem_map,mem_newResults]
    constructor
    · rintro ⟨s,hs,hz⟩
      cases hold : t.hasResult i with
      | true => exact Or.inl rfl
      | false => exact Or.inr ⟨(i,s),⟨hs,hz,hold⟩,rfl⟩
    · rintro (hold | ⟨e,⟨hs,hz,-⟩,rfl⟩)
      · obtain ⟨s,hs,hz⟩ := hasResult_eq_true.mp hold
        obtain ⟨u,hu,hl⟩ := h.later hs
        exact ⟨u,hu,(hl.finalized hz).1⟩
      · exact ⟨e.2,hs,hz⟩
  new hi := by
    obtain ⟨e,he,rfl⟩ := List.mem_map.mp hi
    exact (mem_newResults.mp he).2.2
  kept {e} he := by
    obtain ⟨hs,hz,-⟩ := mem_newResults.mp he
    exact ⟨e.2,hs,Segment.Later.refl e.2,hz,h.ended hs hz⟩

theorem Recorded.refl (t : SegmentTree) : t.Recorded t [] :=
  ⟨Later.refl t,by simp,by simp,by simp,by simp,by simp⟩

theorem Recorded.trans {u : SegmentTree} {log log' : List (ℕ × Segment)} (h : t.Recorded t' log)
    (h' : t'.Recorded u log') : t.Recorded u (log ++ log') where
  later := Later.trans h.later h'.later
  metrics := by rw [h'.metrics,h.metrics,List.flatMap_append,List.append_assoc]
  nodup := by
    rw [List.map_append,List.nodup_append]
    refine ⟨h.nodup,h'.nodup,fun i hi j hj hij => ?_⟩
    have hold := h'.new (hij ▸ hj)
    simp [h.hasResult.mpr (Or.inr hi)] at hold
  hasResult {i} := by rw [h'.hasResult,h.hasResult,List.map_append,List.mem_append,or_assoc]
  new {i} hi := by
    rw [List.map_append,List.mem_append] at hi
    rcases hi with hi | hi
    · exact h.new hi
    · by_contra hold
      have hnew := h'.new hi
      simp [h.hasResult.mpr (Or.inl (by simpa using hold))] at hnew
  kept {e} he := by
    rcases List.mem_append.mp he with he | he
    · obtain ⟨s,hs,hl,hf⟩ := h.kept he
      obtain ⟨v,hv,hlv⟩ := h'.later hs
      exact ⟨v,hv,hl.trans hlv,hf⟩
    · exact h'.kept he

theorem recorded_finalizations (h : List.IsChain Step (t::states)) :
    t.Recorded (states.getLastD t) (t.finalizations states) := by
  induction states generalizing t with
  | nil => exact Recorded.refl t
  | cons u states ih =>
    obtain ⟨hstep,hrest⟩ := List.isChain_cons_cons.mp h
    rw [List.getLastD_cons]
    exact hstep.recorded.trans (ih hrest)

theorem finishAll_eq_foldl (t : SegmentTree) (b : Backtrace) (stop : Time) :
    t.finishAll b stop = (t.unfinished ++ [0]).foldl (fun t i => t.finish b i stop) t := by
  rw [List.foldl_append]
  rfl

/-- The states through which a tree goes while each place of a list is taken in turn. -/
def passing (f : SegmentTree → ℕ → SegmentTree) (t : SegmentTree) : List ℕ → List SegmentTree
  | [] => []
  | i::l => f t i::passing f (f t i) l

/-- The states through which a tree goes while it is closed. -/
def closing (t : SegmentTree) (b : Backtrace) (stop : Time) : List SegmentTree :=
  passing (fun t i => t.finish b i stop) t (t.unfinished ++ [0]) ++
    passing finalize (t.finishAll b stop) (List.range (t.finishAll b stop).size)

@[simp] theorem getLastD_passing (f : SegmentTree → ℕ → SegmentTree) (t : SegmentTree) (l : List ℕ) :
    (passing f t l).getLastD t = l.foldl f t := by
  induction l generalizing t with
  | nil => rfl
  | cons i l ih => rw [passing,List.getLastD_cons,ih,List.foldl_cons]

theorem getLastD_append (t : SegmentTree) (l l' : List SegmentTree) :
    (l ++ l').getLastD t = l'.getLastD (l.getLastD t) := by
  induction l generalizing t with
  | nil => rfl
  | cons u l ih => rw [List.cons_append,List.getLastD_cons,List.getLastD_cons,ih]

theorem getLastD_closing (t : SegmentTree) (b : Backtrace) (stop : Time) :
    (t.closing b stop).getLastD t = t.close b stop := by
  rw [closing,getLastD_append,getLastD_passing,← finishAll_eq_foldl,getLastD_passing,close_eq]

theorem isChain_passing {f : SegmentTree → ℕ → SegmentTree} {P : SegmentTree → Prop}
    (hstep : ∀ {t} i, P t → P (f t i) ∧ t.Step (f t i)) (h : P t) (l : List ℕ) :
    List.IsChain Step (t::passing f t l) := by
  induction l generalizing t with
  | nil => exact List.isChain_singleton t
  | cons i l ih => exact List.isChain_cons_cons.mpr ⟨(hstep i h).2,ih (hstep i h).1⟩

theorem isChain_append {l l' : List SegmentTree} (h : List.IsChain Step (t::l))
    (h' : List.IsChain Step (l.getLastD t::l')) : List.IsChain Step (t::(l ++ l')) := by
  rw [← List.cons_append,List.isChain_append]
  refine ⟨h,h'.tail,fun u hu v hv => ?_⟩
  rw [List.getLast?_cons,Option.mem_some,← List.getLastD_eq_getLast?] at hu
  obtain ⟨rest,rfl⟩ := List.head?_eq_some_iff.mp hv
  exact hu ▸ (List.isChain_cons_cons.mp h').1

def AllFinished (t : SegmentTree) : Prop := ∀ i s, t.get? i = some s → s.isFinished = true

theorem SameTimes.allFinished (h : SameTimes t t') (hall : t.AllFinished) : t'.AllFinished := by
  intro i u hu
  obtain ⟨s,hs,htimes⟩ := h.symm.get? hu
  exact (Segment.isFinished_of_times htimes).symm.trans (hall i s hs)

theorem isChain_closing (ht : t.Rooted) (hr : t.Results) (b : Backtrace) (now : Time) :
    List.IsChain Step (t::t.closing b now) := by
  have hfinish : ∀ {t : SegmentTree} (i : ℕ), t.Rooted ∧ t.Results →
      ((t.finish b i now).Rooted ∧ (t.finish b i now).Results) ∧ t.Step (t.finish b i now) := by
    rintro t i ⟨ht,hr⟩
    have hc : Changes now False t (t.finish b i now) := changes_finish ht i False.elim
    have hr' := hc.results ht hr
    exact ⟨⟨hc.rooted ht,hr'⟩,step_finish ht hr'⟩
  have hfinalize : ∀ {t : SegmentTree} (i : ℕ), (t.Rooted ∧ t.Results ∧ t.AllFinished) →
      ((t.finalize i).Rooted ∧ (t.finalize i).Results ∧ (t.finalize i).AllFinished) ∧
        t.Step (t.finalize i) := by
    rintro t i ⟨ht,hr,hall⟩
    have htimes := finalize_sameTimes t i
    have hc : Changes now False t (t.finalize i) := changes_finalize fun s hs => hall i s hs
    have hr' := hc.results ht hr
    exact ⟨⟨htimes.rooted ht,hr',htimes.allFinished hall⟩,step_finalize t hr'⟩
  obtain ⟨hchanges,hall⟩ := changes_finishAll b now False ht
  refine isChain_append (isChain_passing (P := fun t => t.Rooted ∧ t.Results) hfinish ⟨ht,hr⟩ _) ?_
  rw [getLastD_passing,← finishAll_eq_foldl]
  exact isChain_passing (P := fun t => t.Rooted ∧ t.Results ∧ t.AllFinished) hfinalize
    ⟨hchanges.rooted ht,hchanges.results ht hr,fun _ _ hs => hall hs⟩ _

end TraceEngine.SegmentTree
