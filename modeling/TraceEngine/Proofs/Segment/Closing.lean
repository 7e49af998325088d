import TraceEngine.Proofs.Segment.Path

/-! The end of all segments of a tree: they end from the newest on, then each gets its result from the
accounts that it has in the end. -/
namespace TraceEngine.SegmentTree

variable {t t' : SegmentTree} {now : Time} {orderly : Prop} {b : Backtrace}

theorem mem_unfinished {i : ℕ} :
    i ∈ t.unfinished ↔ 0 < i ∧ ∃ s, t.get? i = some s ∧ s.isFinished = false := by
  simp only [unfinished,List.mem_reverse,List.mem_filter,List.mem_range,Bool.and_eq_true,
    decide_eq_true_eq]
  constructor
  · rintro ⟨hlt,hpos,hany⟩
    obtain ⟨s,hs⟩ := exists_get? hlt
    exact ⟨hpos,s,hs,by simpa [hs] using hany⟩
  · rintro ⟨hpos,s,hs,hn⟩
    exact ⟨lt_size_of_get? hs,hpos,by simp [hs,hn]⟩

theorem unfinished_descending (t : SegmentTree) : t.unfinished.Pairwise (· > ·) := by
  rw [unfinished,List.pairwise_reverse]
  exact List.pairwise_lt_range.filter _

/-- The segments end from the newest on, so that each ends after all that started later. -/
theorem foldl_finish_induction {P : SegmentTree → Prop}
    (hstep : ∀ {u : SegmentTree} {i : ℕ}, u.Rooted → P u →
      (∀ {j v}, u.get? j = some v → i < j → v.isFinished = true) → P (u.finish b i now))
    (ht : t.Rooted) (h : P t) {l : List ℕ} (hl : l.Pairwise (· > ·))
    (hall : ∀ {j s}, t.get? j = some s → 0 < j → s.isFinished = false → j ∈ l) :
    (l.foldl (fun t i => t.finish b i now) t).Rooted ∧ P (l.foldl (fun t i => t.finish b i now) t) ∧
      ∀ {j u}, (l.foldl (fun t i => t.finish b i now) t).get? j = some u → 0 < j →
        u.isFinished = true := by
  induction l generalizing t with
  | nil =>
    refine ⟨ht,h,fun {j u} hu hj => ?_⟩
    by_contra hn
    simpa using hall hu hj (by simpa using hn)
  | cons i l ih =>
    obtain ⟨hi,hl⟩ := List.pairwise_cons.mp hl
    have hlater : ∀ {j v}, t.get? j = some v → i < j → v.isFinished = true := by
      intro j v hv hlt
      by_contra hn
      rcases List.mem_cons.mp (hall hv (by omega) (by simpa using hn)) with rfl | hj
      · exact absurd hlt (lt_irrefl _)
      · exact absurd (hi j hj) (by omega)
    refine ih (ht.finish b i now) (hstep ht h hlater) hl fun {j u} hu hj hn => ?_
    obtain ⟨s,hs,hlater⟩ := exists_of_finish ht hu
    have hsn : s.isFinished = false := by
      by_contra h
      simp [hlater.isFinished (by simpa using h)] at hn
    rcases List.mem_cons.mp (hall hs hj hsn) with rfl | hj'
    · obtain ⟨w,hw,hwf⟩ := isFinished_finish b now ht hs
      cases get?_inj hu hw
      simp [hn] at hwf
    · exact hj'

/-- A tree in which every segment is made to end. -/
def finishAll (t : SegmentTree) (b : Backtrace) (stop : Time) : SegmentTree :=
  (t.unfinished.foldl (fun t i => t.finish b i stop) t).finish b 0 stop

theorem finishAll_eq_finish (h : ∀ {i s}, t.get? i = some s → 0 < i → s.isFinished = true)
    (b : Backtrace) (stop : Time) : t.finishAll b stop = t.finish b 0 stop := by
  have hnone : t.unfinished = [] := by
    refine List.eq_nil_iff_forall_not_mem.mpr fun i hi => ?_
    obtain ⟨hpos,s,hs,hn⟩ := mem_unfinished.mp hi
    simp [h hs hpos] at hn
  rw [finishAll,hnone,List.foldl_nil]

/-- What the end of a segment preserves if all that started later have ended holds when all have
ended. -/
theorem finishAll_descending {P : SegmentTree → Prop}
    (hstep : ∀ {u : SegmentTree} {i : ℕ}, u.Rooted → P u →
      (∀ {j v}, u.get? j = some v → i < j → v.isFinished = true) → P (u.finish b i now))
    (ht : t.Rooted) (h : P t) :
    (t.finishAll b now).Rooted ∧ P (t.finishAll b now) ∧
      ∀ {j u}, (t.finishAll b now).get? j = some u → u.isFinished = true := by
  obtain ⟨hr,hP,hfinished⟩ := foldl_finish_induction hstep ht h t.unfinished_descending
    fun {j s} hs hj hn => mem_unfinished.mpr ⟨hj,s,hs,hn⟩
  refine ⟨hr.finish b 0 now,hstep hr hP hfinished,fun {j u} hu => ?_⟩
  rcases Nat.eq_zero_or_pos j with rfl | hj
  · obtain ⟨s,hs⟩ := exists_get? hr.nonempty
    obtain ⟨v,hv,hvf⟩ := isFinished_finish b now hr hs
    exact get?_inj hu hv ▸ hvf
  · obtain ⟨s,hs,hlater⟩ := exists_of_finish hr hu
    exact hlater.isFinished (hfinished hs hj)

theorem changes_finishAll (b : Backtrace) (now : Time) (orderly : Prop) (ht : t.Rooted) :
    Changes now orderly t (t.finishAll b now) ∧
      ∀ {j u}, (t.finishAll b now).get? j = some u → u.isFinished = true := by
  refine (finishAll_descending (P := Changes now orderly t) (fun {u i} hu h hlater => ?_) ht .refl).2
  refine h.trans (changes_finish hu i fun _ _ _ _ c hc => ?_)
  obtain ⟨k,hk,hp⟩ := mem_children.mp hc
  exact hlater hk (hu.parent_lt hk hp)

theorem finalize_of_get? {i : ℕ} {s : Segment} (hs : t.get? i = some s) :
    ∃ s', (if s.finalized then s else s.recordExclusive).Alike s' ∧
      ∀ j, (t.finalize i).get? j = if j = i then some s' else t.get? j := by
  cases hn : s.finalized with
  | true =>
    refine ⟨s,Segment.Alike.refl s,fun j => ?_⟩
    simp only [finalize,hs,hn,if_true]
    split
    · rename_i hj
      exact hj ▸ hs
    · rfl
  | false =>
    obtain ⟨-,-,s',hs',hget⟩ := get?_finalize hs hn
    exact ⟨s',hs',hget⟩

theorem get?_finalize_ne {i j : ℕ} (h : j ≠ i) : (t.finalize i).get? j = t.get? j := by
  rcases t.finalize_cases i with he | ⟨s,hs,hn⟩
  · rw [he]
  · obtain ⟨-,-,s',-,hget⟩ := get?_finalize hs hn
    rw [hget,if_neg h]

theorem get?_foldl_finalize {l : List ℕ} (hl : l.Nodup) {j : ℕ} {s : Segment} (hs : t.get? j = some s) :
    ∃ u, (l.foldl finalize t).get? j = some u ∧
      (if j ∈ l ∧ s.finalized = false then s.recordExclusive else s).Alike u := by
  induction l generalizing t s with
  | nil => exact ⟨s,hs,by simpa using Segment.Alike.refl s⟩
  | cons i l ih =>
    obtain ⟨hi,hl'⟩ := List.nodup_cons.mp hl
    rw [List.foldl_cons]
    cases hsi : t.get? i with
    | none =>
      have hij : j ≠ i := by rintro rfl; simp [hs] at hsi
      obtain ⟨u,hu,hau⟩ := ih hl' (t := t.finalize i) (by simpa only [finalize,hsi] using hs)
      exact ⟨u,hu,by simpa [hij] using hau⟩
    | some si =>
      obtain ⟨s',hs',hget⟩ := finalize_of_get? hsi
      by_cases hij : j = i
      · subst hij
        cases get?_inj hs hsi
        obtain ⟨u,hu,hau⟩ := ih hl' (t := t.finalize j) ((hget j).trans (if_pos rfl))
        refine ⟨u,hu,?_⟩
        simp only [hi,false_and,if_false] at hau
        cases hn : s.finalized with
        | true => simpa [hn] using (hs'.trans hau)
        | false => simpa [hn] using (hs'.trans hau)
      · obtain ⟨u,hu,hau⟩ := ih hl' (t := t.finalize i) ((hget j).trans ((if_neg hij).trans hs))
        exact ⟨u,hu,by simpa [hij] using hau⟩

theorem changes_foldl_finalize {l : List ℕ} (h : ∀ {j s}, t.get? j = some s → s.isFinished = true) :
    Changes now orderly t (l.foldl finalize t) := by
  induction l generalizing t with
  | nil => exact .refl
  | cons i l ih =>
    refine (changes_finalize fun s hs => h hs).trans (ih fun {j u} hu => ?_)
    obtain ⟨v,hv,htimes⟩ := (finalize_sameTimes t i).symm.get? hu
    exact (Segment.isFinished_of_times htimes).symm.trans (h hv)

theorem close_eq (t : SegmentTree) (b : Backtrace) (stop : Time) :
    t.close b stop = (List.range (t.finishAll b stop).size).foldl finalize (t.finishAll b stop) := rfl

theorem changes_close (b : Backtrace) (now : Time) (orderly : Prop) (ht : t.Rooted) :
    Changes now orderly t (t.close b now) := by
  obtain ⟨hchanges,hfinished⟩ := changes_finishAll b now orderly ht
  rw [close_eq]
  exact hchanges.trans (changes_foldl_finalize hfinished)

theorem finishAll_induction {P : SegmentTree → Prop} (h : P t)
    (hstep : ∀ {t} i, P t → P (t.finish b i now)) : P (t.finishAll b now) :=
  hstep 0 (List.foldlRecOn t.unfinished _ h fun _ hu i _ => hstep i hu)

/-- In a closed tree every segment has ended and has a result. One that had none when the last
segment ended has it from its accounts at that time. -/
theorem get?_close (b : Backtrace) (now : Time) {j : ℕ} {s : Segment}
    (hs : (t.finishAll b now).get? j = some s) :
    ∃ u, (t.close b now).get? j = some u ∧
      (if s.finalized = false then s.recordExclusive else s).Alike u := by
  obtain ⟨u,hu,hau⟩ := get?_foldl_finalize (List.nodup_range (n := (t.finishAll b now).size)) hs
  have hj : j ∈ List.range (t.finishAll b now).size := List.mem_range.mpr (lt_size_of_get? hs)
  exact ⟨u,hu,by simpa [hj] using hau⟩

theorem foldl_finalize_sameTimes (t : SegmentTree) (l : List ℕ) : SameTimes t (l.foldl finalize t) := by
  induction l generalizing t with
  | nil => exact SameTimes.refl t
  | cons i l ih => exact (finalize_sameTimes t i).trans (ih (t.finalize i))

theorem close_sameTimes (t : SegmentTree) (b : Backtrace) (stop : Time) :
    SameTimes (t.finishAll b stop) (t.close b stop) :=
  foldl_finalize_sameTimes _ _

theorem finalized_close (b : Backtrace) (now : Time) {j : ℕ} {u : Segment}
    (hu : (t.close b now).get? j = some u) :
    u.finalized = true := by
  obtain ⟨s,hs⟩ := exists_get? ((close_sameTimes t b now).size ▸ lt_size_of_get? hu)
  obtain ⟨v,hv,hav⟩ := get?_close b now hs
  cases get?_inj hu hv
  cases hn : s.finalized with
  | true => exact (by simpa [hn] using hav : s.Alike u).finalized.trans hn
  | false => exact (by simpa [hn] using hav : s.recordExclusive.Alike u).finalized

end TraceEngine.SegmentTree
