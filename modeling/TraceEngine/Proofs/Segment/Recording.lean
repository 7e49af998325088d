import TraceEngine.Proofs.Segment.Outline
import TraceEngine.Proofs.Segment.Results

/-! Segments that get their results as soon as they end. Whether a segment does is not changed by
the end of any segment, and all others get theirs when the tree is closed. -/
namespace TraceEngine.SegmentTree

variable {t t' : SegmentTree} {now : Time} {b : Backtrace} {i p : ℕ} {s s' : Segment}

/-- The same segments record on finish. -/
def SameRecording (t t' : SegmentTree) : Prop :=
  ∀ j, (t'.get? j).map (·.recordOnFinish) = (t.get? j).map (·.recordOnFinish)

theorem SameRecording.refl (t : SegmentTree) : t.SameRecording t := fun _ => rfl

theorem modify_sameRecording {f : Segment → Segment}
    (hf : ∀ s, t.get? i = some s → (f s).recordOnFinish = s.recordOnFinish) :
    t.SameRecording (t.modify i f) := by
  intro j
  rw [← getElem?_map_segments,← getElem?_map_segments,map_segments_modify hf]

theorem finish_sameRecording (t : SegmentTree) (b : Backtrace) (i : ℕ) (now : Time) :
    t.SameRecording (t.finish b i now) :=
  map_get?_of_outline (fun _ => rfl) (outline_finish t b i now)

theorem Quiets.finalized (ht : t.Rooted) (h : Quiets t t') {j : ℕ} {u : Segment}
    (hu : t'.get? j = some u) (hf : u.finalized = true) :
    ∃ v, t.get? j = some v ∧ v.finalized = true := by
  induction h generalizing u with
  | refl => exact ⟨u,hu,hf⟩
  | tail h hq ih =>
    obtain ⟨w,hw,hk⟩ := hq.exists_get? ((Quiets.sameTimes ht h).rooted ht) hu
    exact ih hw (hk.finalized ▸ hf)

theorem finalized_of_countUp (ht : t.Rooted) (hs : t.get? i = some s) (hn : s.isFinished = false)
    (hs' : (s.stopAt now).Alike s') {j : ℕ} {u : Segment} (hu : (t.countUp i s').get? j = some u)
    (hf : u.finalized = true) : ∃ v, t.get? j = some v ∧ v.finalized = true := by
  obtain ⟨w,hw,hwf⟩ := Quiets.finalized (ht.endSegment hs hn hs') (quiets_countUp ht hs hn hs') hu hf
  obtain ⟨v,hv,-,hfv,-⟩ := exists_result_of_endSegment ht hs hn hs' hw
  exact ⟨v,hv,hfv ▸ hwf⟩

/-- The end of a segment gives a result to none but this segment, and only if it records on finish. -/
theorem finalized_of_finish (ht : t.Rooted) {j : ℕ} {u : Segment}
    (hu : (t.finish b i now).get? j = some u) (hf : u.finalized = true) :
    ∃ v, t.get? j = some v ∧
      (v.finalized = true ∨ j = i ∧ v.isFinished = false ∧ v.recordOnFinish = true) := by
  rcases t.finish_cases b i now with he | ⟨s,hs,hn⟩
  · exact ⟨u,he ▸ hu,Or.inl hf⟩
  · obtain ⟨s',t',halike,-,ht',he⟩ := finish_of_get? (b := b) hs hn now
    have hkept : ∀ {u}, t'.get? j = some u → u.finalized = true →
        ∃ v, t.get? j = some v ∧ v.finalized = true := by
      intro u hu hf
      rw [ht'] at hu
      exact finalized_of_countUp ht hs hn halike hu hf
    rw [he] at hu
    split at hu
    · rename_i hr
      by_cases hji : j = i
      · exact ⟨s,hji ▸ hs,Or.inr ⟨hji,hn,hr⟩⟩
      · rw [get?_finalize_ne hji] at hu
        obtain ⟨v,hv,hvf⟩ := hkept hu hf
        exact ⟨v,hv,Or.inl hvf⟩
    · obtain ⟨v,hv,hvf⟩ := hkept hu hf
      exact ⟨v,hv,Or.inl hvf⟩

theorem finalized_finish (b : Backtrace) (now : Time) (hs : t.get? i = some s)
    (hn : s.isFinished = false) (hr : s.recordOnFinish = true) {u : Segment}
    (hu : (t.finish b i now).get? i = some u) : u.finalized = true := by
  obtain ⟨s',t',-,-,-,he⟩ := finish_of_get? (b := b) hs hn now
  rw [he,if_pos hr] at hu
  obtain ⟨v,hv⟩ := exists_get? ((finalize_sameTimes t' i).size ▸ lt_size_of_get? hu)
  obtain ⟨w,hw,hget⟩ := finalize_of_get? hv
  cases get?_inj hu ((hget i).trans (if_pos rfl))
  cases hz : v.finalized with
  | true => exact (by simpa [hz] using hw : v.Alike u).finalized.trans hz
  | false => exact (by simpa [hz] using hw : v.recordExclusive.Alike u).finalized

/-- A segment that has no result yet, and gets none when it ends. -/
def Pending (p : ℕ) (t : SegmentTree) : Prop :=
  ∀ s, t.get? p = some s → s.finalized = false ∧ (s.isFinished = false → s.recordOnFinish = false)

theorem Pending.finish (ht : t.Rooted) (h : t.Pending p) (b : Backtrace) (i : ℕ) (now : Time) :
    (t.finish b i now).Pending p := by
  intro u hu
  obtain ⟨s,hs,hl⟩ := exists_of_finish ht hu
  obtain ⟨hz,hr⟩ := h s hs
  constructor
  · by_contra hf
    obtain ⟨v,hv,hor⟩ := finalized_of_finish ht hu (by simpa using hf)
    cases get?_inj hs hv
    rcases hor with hvf | ⟨-,hvn,hvr⟩
    · simp [hz] at hvf
    · simp [hr hvn] at hvr
  · intro hun
    have hsn : s.isFinished = false := by
      by_contra hsf
      simp [hl.isFinished (by simpa using hsf)] at hun
    have hsame := finish_sameRecording t b i now p
    rw [hu,hs,Option.map_some,Option.map_some] at hsame
    exact (Option.some.inj hsame).trans (hr hsn)

theorem Pending.finishAll (ht : t.Rooted) (h : t.Pending p) (b : Backtrace) (now : Time) :
    (t.finishAll b now).Pending p := by
  have hstep : ∀ {t : SegmentTree} (i : ℕ), t.Rooted ∧ t.Pending p →
      (t.finish b i now).Rooted ∧ (t.finish b i now).Pending p := by
    rintro t i ⟨ht,h⟩
    exact ⟨ht.finish b i now,h.finish ht b i now⟩
  exact (finishAll_induction (P := fun t => t.Rooted ∧ t.Pending p) ⟨ht,h⟩ hstep).2

end TraceEngine.SegmentTree
