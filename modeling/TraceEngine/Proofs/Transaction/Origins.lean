import TraceEngine.Proofs.Segment.Outline
import TraceEngine.Proofs.Transaction.Sampling

/-! What segments have from their start on. No operation changes it, and none takes a segment away or
moves it: at most one more is put last. -/
namespace TraceEngine

/-- What a segment has from its start on. -/
structure Origin where
  guid : SpanId
  parent : Option ℕ
  start : Time
  inSample : Bool

def Segment.origin (s : Segment) : Origin := ⟨s.guid,s.parent,s.start,s.inSample⟩

namespace SegmentTree

variable {t t' : SegmentTree} {i : ℕ}

def origins (t : SegmentTree) : List Origin := t.segments.toList.map (·.origin)

def guids (t : SegmentTree) : List SpanId := t.segments.toList.map (·.guid)

theorem getElem?_origins (t : SegmentTree) (i : ℕ) : t.origins[i]? = (t.get? i).map (·.origin) :=
  getElem?_map_segments _ t i

theorem getElem?_guids (t : SegmentTree) (i : ℕ) : t.guids[i]? = (t.get? i).map (·.guid) :=
  getElem?_map_segments _ t i

theorem length_origins (t : SegmentTree) : t.origins.length = t.size := by
  simp [origins,size]

theorem guids_eq (t : SegmentTree) : t.guids = t.origins.map (·.guid) := by
  simp [guids,origins,Segment.origin]

theorem origins_of_outline (h : t'.outline = t.outline) : t'.origins = t.origins :=
  map_segments_of_outline (fun _ => rfl) h

theorem origins_modify {f : Segment → Segment} (hf : ∀ s, (f s).origin = s.origin) :
    (t.modify i f).origins = t.origins :=
  map_segments_modify fun s _ => hf s

theorem origins_start (t : SegmentTree) (s : Segment) (p : ℕ) (b : Bool) :
    (t.start s p b).origins = t.origins ++ [{ s with parent := some p }.origin] := by
  have h : (t.start s p b).origins =
      ({ t with segments := t.segments.push { s with parent := some p } } : SegmentTree).origins :=
    origins_modify fun _ => rfl
  rw [h]
  simp [origins]

end SegmentTree

namespace Transaction

variable {t t' : Transaction}

/-- Segments keep their places and origins. One may be put last, which is in the sample if it stands
within the limit. -/
def Grows (t t' : Transaction) : Prop :=
  t'.tree.origins = t.tree.origins ∨ ∃ o : Origin,
    o.inSample = Decidable.decide (t.tree.size < t.settings.segmentLimit) ∧
      t'.tree.origins = t.tree.origins ++ [o]

theorem Grows.refl (t : Transaction) : t.Grows t := Or.inl rfl

theorem grows_startSegment (t : Transaction) (name : String) (kind : SegmentKind) (o : SegmentOptions) :
    t.Grows (t.after ((t.startSegment name kind o).map (·.2))) := by
  cases h : t.startSegment name kind o with
  | error e => exact .refl t
  | ok r =>
    obtain ⟨-,q,s,-,-,-,hsample,htree,-⟩ := startSegment_ok h
    refine Or.inr ⟨{ s with parent := some (o.parent.getD t.tree.current) }.origin,hsample,?_⟩
    show r.2.tree.origins = _
    rw [htree]
    exact SegmentTree.origins_start t.tree s _ _

theorem grows_apply (t : Transaction) (op : Operation) : t.Grows (t.apply op) := by
  have hsegment (id : ℕ) {f : Segment → Except SegmentFault Transaction}
      (hf : ∀ s, (t.after (f s)).tree.origins = t.tree.origins) :
      t.Grows (t.after (t.segment id >>= f)) :=
    onSegment (.refl t) id fun s _ => Or.inl (hf s)
  cases op with
  | rename | decide | setForcePersist | setSyntheticsId | acceptHeaders | acceptContext
  | insertHeaders | requestHeaders => exact Or.inl (congrArg SegmentTree.origins (unmoved_apply rfl).tree)
  | startNamed name o =>
    simp only [apply,startNamed]
    cases required "name" name with
    | error e => exact .refl t
    | ok n => exact t.grows_startSegment n .generic o
  | startKind kind o => exact t.grows_startSegment _ kind o
  | finishSegment id stop frames =>
    exact hsegment id fun _ => SegmentTree.origins_of_outline (SegmentTree.outline_finish _ _ _ _)
  | setCurrent id => exact hsegment id fun _ => rfl
  | changeSegment id change =>
    refine hsegment id fun _ => SegmentTree.origins_modify fun s => ?_
    obtain ⟨ps,h⟩ := change_eq change s
    rw [h]
    rfl
  | setHostHeader id host =>
    refine hsegment id fun _ => SegmentTree.origins_modify fun s => ?_
    unfold Segment.setHostHeader
    split <;> rfl
  | noticeError id error =>
    have h := SegmentTree.origins_modify (t := t.tree) (i := id)
      (f := fun s => { s with error := some error }) fun _ => rfl
    refine hsegment id fun s => ?_
    cases t.settings.highSecurity with
    | true => rfl
    | false => cases s.error <;> exact h
  | finish stop frames chance =>
    cases hopen : t.isFinished with
    | true => exact Or.inl (by rw [apply,finish_of_ended hopen])
    | false =>
      -- The end of a transaction is made of ends and results, which leave all outlines.
      refine Or.inl (SegmentTree.origins_of_outline ?_)
      rw [apply,(finish_of_open hopen stop frames chance).1,SegmentTree.outline_close]

theorem Grows.origins_isPrefix (h : t.Grows t') : t.tree.origins <+: t'.tree.origins := by
  rcases h with h | ⟨o,-,h⟩
  · rw [h]
  · rw [h]
    exact List.prefix_append _ _

/-- Segments keep their places and guids, whatever is done with the transaction. -/
theorem guids_apply (t : Transaction) (op : Operation) : t.tree.guids <+: (t.apply op).tree.guids := by
  rw [SegmentTree.guids_eq,SegmentTree.guids_eq]
  exact (t.grows_apply op).origins_isPrefix.map _

theorem guids_run (t : Transaction) (ops : List Operation) : t.tree.guids <+: (t.run ops).tree.guids := by
  induction ops generalizing t with
  | nil => exact List.prefix_rfl
  | cons op ops ih => exact (t.guids_apply op).trans (ih _)

theorem identity_apply (t : Transaction) (op : Operation) :
    (t.apply op).guid = t.guid ∧ (t.apply op).settings = t.settings := by
  cases involvement_apply t op with
  | keep hsame => exact ⟨hsame.guid,hsame.settings⟩
  | decide chance hsame =>
    have hdecide := t.sameTrace_decide chance
    exact ⟨hsame.guid.trans hdecide.guid,hsame.settings.trans hdecide.settings⟩
  | accept _ _ _ _ hguid hsettings => exact ⟨hguid,hsettings⟩
  | @create chance _ _ _ _ _ hsame =>
    have hdecide := t.sameTrace_decide chance
    have hguid : (t.apply op).guid = (t.decide chance).2.guid := hsame.guid
    have hsettings : (t.apply op).settings = (t.decide chance).2.settings := hsame.settings
    exact ⟨hguid.trans hdecide.guid,hsettings.trans hdecide.settings⟩

theorem guid_apply (t : Transaction) (op : Operation) : (t.apply op).guid = t.guid :=
  (t.identity_apply op).1

theorem settings_apply (t : Transaction) (op : Operation) : (t.apply op).settings = t.settings :=
  (t.identity_apply op).2

theorem guid_run (t : Transaction) (ops : List Operation) : (t.run ops).guid = t.guid := by
  induction ops generalizing t with
  | nil => rfl
  | cons op ops ih => exact (ih _).trans (t.guid_apply op)

end Transaction

end TraceEngine
