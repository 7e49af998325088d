import TraceEngine.Proofs.Transaction.Origins
import TraceEngine.Transaction.Snapshot

/-! The contexts that a transaction hands out over a run. They all name one trace with one decision, and
so does what is shown of the transaction from the first of them on. -/
namespace TraceEngine.Transaction

variable {t : Transaction} {op : Operation} {o : Outcome} {id : TraceId}

/-- The contexts that are handed out in a run, each with the place of the segment that it is made for. -/
def contexts (t : Transaction) : List Operation → List (ℕ × OutboundContext)
  | [] => []
  | op::ops => (t.outbound? op).toList ++ (t.apply op).contexts ops

/-- A context that names a trace and the decision on it, also in the own entry. -/
structure Names (guid : SpanId) (id : TraceId) (o : Outcome) (c : OutboundContext) : Prop where
  traceId : c.traceId = id
  sampled : c.sampled = o.sampled
  entry : ∀ key payload, c.entry = some (key,payload) → payload.sampled = some c.sampled ∧
    payload.priority = some o.priority.value ∧ payload.id = some c.parentId.text ∧
    payload.transactionId = some guid.text

theorem names_contextFor (t : Transaction) (o : Outcome) (spanId : SpanId) (now : Time) :
    Names t.guid t.traceId o (t.contextFor o spanId now) where
  traceId := rfl
  sampled := rfl
  entry key payload h := by
    obtain ⟨k,-,hk⟩ := Option.map_eq_some_iff.mp h
    cases hk
    exact ⟨rfl,rfl,rfl,rfl⟩

/-- The first context of a run fixes what all name: the trace, and the decision that is taken by then. -/
theorem names_of_outbound {i : ℕ} {c : OutboundContext} (h : t.outbound? op = some (i,c)) :
    ∃ o, Names t.guid (t.apply op).traceId o c ∧ (t.apply op).sampling = some o ∧
      (t.apply op).exchange.isClosed = true ∧ t.tree.guids[i]? = some c.parentId := by
  cases involvement_apply t op with
  | keep _ _ _ hout => simp [hout] at h
  | decide _ _ _ hout => simp [hout] at h
  | accept _ _ _ hout => simp [hout] at h
  | @create chance j s now hs hout hsame _ hcreated =>
    cases hout.symm.trans h
    have htrace : (t.apply op).traceId = t.traceId := hsame.traceId.trans (t.sameTrace_decide chance).traceId
    refine ⟨(t.decide chance).1,?_,?_,by simp [Exchange.isClosed,hcreated],?_⟩
    · rw [htrace]
      exact t.names_contextFor _ _ _
    · exact (show (t.apply op).sampling = _ from hsame.sampling).trans (sampling_decide t chance)
    · rw [SegmentTree.getElem?_guids,hs]
      rfl

theorem names_of_closed (hclosed : t.exchange.isClosed = true) (hdecided : t.sampling = some o)
    (ops : List Operation) : ∀ e ∈ t.contexts ops, Names t.guid t.traceId o e.2 := by
  induction ops generalizing t with
  | nil => simp [contexts]
  | cons op ops ih =>
    obtain ⟨htrace,hsampling⟩ := apply_of_decided hdecided (accepts_of_closed hclosed op)
    intro e he
    rcases List.mem_append.mp he with hout | hrest
    · obtain ⟨o',hnames,hsampling',-⟩ := names_of_outbound (Option.mem_toList.mp hout)
      cases hsampling.symm.trans hsampling'
      exact htrace ▸ hnames
    · have hnames := ih (isClosed_apply hclosed op) hsampling e hrest
      rwa [htrace,t.guid_apply op] at hnames

/-- The contexts of a run name one trace and one decision, which the transaction has from the first of
them on. -/
theorem exists_names (t : Transaction) (ops : List Operation) :
    ∃ id o, (∀ e ∈ t.contexts ops, Names t.guid id o e.2) ∧
      ∀ before after, ops = before ++ after → t.contexts before ≠ [] →
        (t.run before).traceId = id ∧ (t.run before).sampling = some o := by
  induction ops generalizing t with
  | nil =>
    refine ⟨t.traceId,⟨false,.drop⟩,by simp [contexts],fun before after he hn => ?_⟩
    obtain ⟨rfl,-⟩ := List.append_eq_nil_iff.mp he.symm
    exact absurd rfl hn
  | cons op ops ih =>
    cases hout : t.outbound? op with
    | none =>
      obtain ⟨id,o,hnames,hshown⟩ := ih (t.apply op)
      refine ⟨id,o,?_,fun before after he hn => ?_⟩
      · simpa [contexts,hout,t.guid_apply op] using hnames
      · cases before with
        | nil => exact absurd rfl hn
        | cons op' before =>
          obtain ⟨rfl,hrest⟩ := List.cons.inj he
          exact hshown before after hrest (by simpa [contexts,hout] using hn)
    | some e =>
      obtain ⟨o,hnames,hsampling,hclosed,-⟩ := names_of_outbound hout
      refine ⟨(t.apply op).traceId,o,fun e' he' => ?_,fun before after he hn => ?_⟩
      · rcases List.mem_append.mp he' with hfirst | hrest
        · rw [hout,Option.mem_toList] at hfirst
          cases hfirst
          exact hnames
        · have hrest := names_of_closed hclosed hsampling ops e' hrest
          rwa [t.guid_apply op] at hrest
      · cases before with
        | nil => exact absurd rfl hn
        | cons op' before =>
          obtain ⟨rfl,-⟩ := List.cons.inj he
          exact run_of_decided hsampling (neverAccepts_of_closed hclosed before)

theorem parentId_of_mem_contexts {ops : List Operation} {e : ℕ × OutboundContext}
    (he : e ∈ t.contexts ops) : (t.run ops).tree.guids[e.1]? = some e.2.parentId := by
  induction ops generalizing t with
  | nil => simp [contexts] at he
  | cons op ops ih =>
    rcases List.mem_append.mp he with hout | hrest
    · obtain ⟨o,-,-,-,hguid⟩ := names_of_outbound (Option.mem_toList.mp hout)
      obtain ⟨hlt,hget⟩ := List.getElem?_eq_some_iff.mp hguid
      rw [List.prefix_iff_getElem?.mp (t.guids_run (op::ops)) e.1 hlt,hget]
    · exact ih hrest

theorem intrinsics_of_decided (h : t.sampling = some o) :
    t.intrinsics.lookup "guid" = some (.string t.guid.text) ∧
      t.intrinsics.lookup "traceId" = some (.string t.traceId.text) ∧
      t.intrinsics.lookup "sampled" = some (.bool o.sampled) ∧
      t.intrinsics.lookup "priority" = some (.real o.priority.value) := by
  simp [intrinsics,h,List.lookup_cons]

-- Two contexts for two segments; what is offered between them comes too late.
example : (plain.contexts [.insertHeaders (.map []) 0 unlikely,.acceptContext keptContext unlikely,.startUnder 0 1,
      .requestHeaders 1 (.map []) 0 unlikely]).map (fun e => (e.1,e.2.traceId,e.2.sampled)) =
    [(0,⟨3⟩,false),(1,⟨3⟩,false)] := by decide +kernel

end TraceEngine.Transaction
