import TraceEngine.Proofs.Propagation.Exchange
import TraceEngine.Proofs.Transaction.Ended

/-! The part that a transaction has in a trace over a run of operations, and the decision whether the
trace is sampled. A context is accepted at most once, and not after one was created. The decision is
taken once, but for a context that is accepted after it. -/
namespace TraceEngine

/-- An operation that asks for the decision, or ends the transaction and with it the time to decide. -/
def Operation.settles : Operation → Bool
  | .decide _ | .finish _ _ _ => true
  | _ => false

/-- An operation that hands in a context that was read before. -/
def Operation.handsIn (context : TraceContext) : Operation → Prop
  | .acceptContext c _ => c = context
  | .acceptHeaders c _ => ∃ key, (TraceContext.extract c key).value = .ok (some context)
  | _ => False

namespace Transaction

variable {t t' u : Transaction} {op : Operation} {o : Outcome}

/-- An operation that takes over the trace of an inbound context. -/
def accepts (t : Transaction) : Operation → Bool
  | .acceptHeaders c chance => (t.acceptHeaders c chance).1
  | .acceptContext c chance => (t.acceptContext c chance).1
  | _ => false

def context? (r : Except SegmentFault (Option OutboundContext × Carrier × Transaction)) :
    Option OutboundContext :=
  match r with
  | .ok (o?,_,_) => o?
  | .error _ => none

/-- The context that an operation hands out, with the place of the segment that it is made for. -/
def outbound? (t : Transaction) : Operation → Option (ℕ × OutboundContext)
  | .insertHeaders c now chance => (context? (t.insertHeaders c now chance)).map (t.tree.current,·)
  | .requestHeaders id c now chance => (context? (t.requestHeaders id c now chance)).map (id,·)
  | _ => none

/-- An operation by which the decision is fixed, unless it was before. -/
def fixes (t : Transaction) (op : Operation) : Bool :=
  op.settles || t.accepts op || (t.outbound? op).isSome

def neverAccepts (t : Transaction) (ops : List Operation) : Bool :=
  always (fun t op => !t.accepts op) t ops

/-- The context that a transaction makes for a segment, with the decision that it has taken. -/
def contextFor (t : Transaction) (o : Outcome) (spanId : SpanId) (now : Time) : OutboundContext where
  traceId := t.traceId
  parentId := spanId
  sampled := o.sampled
  entry := t.entryKey?.map fun key => (key,
    { accountId := t.settings.accountId.getD "", appId := t.settings.primaryApplicationId.getD "",
      id := some spanId.text, transactionId := some t.guid.text, sampled := some o.sampled,
      priority := some o.priority.value, timestamp := now / Nat.pow 10 6 % Nat.pow 2 64 })
  others := (t.exchange.accepted.map (·.others)).getD []

/-- The same part in the same trace. How often a context was refused does not count. -/
structure SameTrace (t t' : Transaction) : Prop where
  guid : t'.guid = t.guid
  traceId : t'.traceId = t.traceId
  sampling : t'.sampling = t.sampling
  settings : t'.settings = t.settings
  accepted : t'.exchange.accepted = t.exchange.accepted
  created : t'.exchange.created = t.exchange.created

theorem SameTrace.refl (t : Transaction) : t.SameTrace t := ⟨rfl,rfl,rfl,rfl,rfl,rfl⟩

theorem SameTrace.isClosed (h : t.SameTrace t') : t'.exchange.isClosed = t.exchange.isClosed := by
  rw [Exchange.isClosed,Exchange.isClosed,h.accepted,h.created]

/-- Four things that an operation may do. -/
inductive Involvement (t : Transaction) (op : Operation) (t' : Transaction) : Prop
  | keep (h : t.SameTrace t') (hsettles : op.settles = true → t.isFinished = true)
      (haccepts : t.accepts op = false) (hout : t.outbound? op = none)
  | decide (chance : Chance) (h : (t.decide chance).2.SameTrace t') (haccepts : t.accepts op = false)
      (hout : t.outbound? op = none)
  | accept {c : TraceContext} (hc : op.handsIn c) (hopen : t.exchange.isClosed = false)
      (haccepts : t.accepts op = true) (hout : t.outbound? op = none) (hguid : t'.guid = t.guid)
      (hsettings : t'.settings = t.settings) (hdecided : t'.sampling.isSome = true)
      (haccepted : t'.exchange.accepted = some c) (hcreated : t'.exchange.created = t.exchange.created)
  | create {chance : Chance} {i : ℕ} {s : Segment} {now : Time} (hs : t.tree.get? i = some s)
      (hout : t.outbound? op = some (i,t.contextFor (t.decide chance).1 s.guid now))
      (h : (t.decide chance).2.SameTrace { t' with exchange := t.exchange })
      (haccepted : t'.exchange.accepted = t.exchange.accepted) (hcreated : t'.exchange.created = true)
      (haccepts : t.accepts op = false)

theorem sameTrace_limitReached (t : Transaction) : t.SameTrace t.limitReached := by
  unfold limitReached
  split <;> exact ⟨rfl,rfl,rfl,rfl,rfl,rfl⟩

theorem sameTrace_startSegment (t : Transaction) (name : String) (kind : SegmentKind)
    (o : SegmentOptions) : t.SameTrace (t.after ((t.startSegment name kind o).map (·.2))) := by
  unfold startSegment
  split
  · exact .refl t
  · simp only
    split
    · exact .refl t
    · have h : t.SameTrace (if t.settings.segmentLimit ≤ t.tree.size then t.limitReached else t) := by
        split
        · exact sameTrace_limitReached t
        · exact .refl t
      exact ⟨h.guid,h.traceId,h.sampling,h.settings,h.accepted,h.created⟩

theorem decide_of_some (h : t.sampling = some o) (chance : Chance) : t.decide chance = (o,t) := by
  unfold decide
  rw [h]

theorem SameTrace.decide (h : t.SameTrace t') (hdecider : t'.decider = t.decider) (chance : Chance) :
    (t.decide chance).2.SameTrace (t'.decide chance).2 := by
  unfold Transaction.decide
  rw [h.sampling,h.traceId,hdecider]
  cases t.sampling with
  | some o => exact h
  | none => exact ⟨h.guid,rfl,rfl,h.settings,h.accepted,h.created⟩

theorem sameTrace_decide (t : Transaction) (chance : Chance) :
    t.SameTrace { (t.decide chance).2 with sampling := t.sampling } := by
  unfold decide
  split <;> exact ⟨rfl,rfl,rfl,rfl,rfl,rfl⟩

theorem applyAccepted_none {n : ExchangeCounts} {done : Logged (Option AcceptedTrace × Exchange)}
    (h : done.value = (none,{ t.exchange with counts := n })) (chance : Chance) :
    (t.applyAccepted chance done).1 = false ∧ t.SameTrace (t.applyAccepted chance done).2 := by
  unfold applyAccepted
  rw [h]
  exact ⟨rfl,rfl,rfl,rfl,rfl,rfl,rfl⟩

/-- What is accepted takes the place of the own trace and of a decision that was taken before. -/
theorem applyAccepted_some {a : AcceptedTrace} {x : Exchange}
    {done : Logged (Option AcceptedTrace × Exchange)} (h : done.value = (some a,x)) (chance : Chance) :
    t.applyAccepted chance done =
      (true,{ t.write done.records with
        exchange := x, traceId := a.traceId, sampling := some (a.decision.outcome chance),
        parentTrace := some a, consulted := t.consulted ++ a.decision.consulted }) := by
  unfold applyAccepted
  rw [h]
  rfl

theorem createOutbound_eq (henabled : t.settings.distributedTracingEnabled = true) (spanId : SpanId)
    (c : Carrier) (now : Time) (chance : Chance) :
    ∃ t', t.createOutbound spanId c now chance =
        (some (t.contextFor (t.decide chance).1 spanId now),
          ((t.contextFor (t.decide chance).1 spanId now).inject c).value,t') ∧
      (t.decide chance).2.SameTrace { t' with exchange := t.exchange } ∧
      t'.exchange.accepted = t.exchange.accepted ∧ t'.exchange.created = true := by
  have hsame := t.sameTrace_decide chance
  unfold createOutbound
  rw [if_pos henabled]
  have hcontext : t.contextFor (t.decide chance).1 spanId now = ((t.decide chance).2.exchange.create
      { traceId := (t.decide chance).2.traceId, spanId, transactionId := (t.decide chance).2.guid,
        sampled := (t.decide chance).1.sampled, priority := (t.decide chance).1.priority.value,
        key := (t.decide chance).2.entryKey?, accountId := (t.decide chance).2.settings.accountId,
        applicationId := (t.decide chance).2.settings.primaryApplicationId,
        timestamp := now / Nat.pow 10 6 % Nat.pow 2 64 }).1 := by
    have haccepted : (t.decide chance).2.exchange.accepted = t.exchange.accepted := hsame.accepted
    have htrace : (t.decide chance).2.traceId = t.traceId := hsame.traceId
    have hguid : (t.decide chance).2.guid = t.guid := hsame.guid
    have hsettings : (t.decide chance).2.settings = t.settings := hsame.settings
    simp only [Exchange.create,entryKey?,haccepted,htrace,hguid,hsettings]
    rfl
  rw [hcontext]
  exact ⟨_,rfl,⟨rfl,rfl,rfl,rfl,hsame.accepted.symm,hsame.created.symm⟩,hsame.accepted,rfl⟩

theorem Involvement.of_offer (p : TraceContext → Prop) {chance : Chance} {r : Bool × Transaction}
    {done : Logged (Option AcceptedTrace × Exchange)}
    (hr : r = if t.settings.distributedTracingEnabled then t.applyAccepted chance done else (false,t))
    (haccepts : t.accepts op = r.1) (hout : t.outbound? op = none) (hsettles : op.settles = false)
    (hp : ∀ c, p c → op.handsIn c)
    (hdone : (∃ n, done.value = (none,{ t.exchange with counts := n })) ∨
      ∃ c, p c ∧ done.value = (t.exchange.accept t.decider c).value) :
    Involvement t op r.2 := by
  subst hr
  have hquiet : op.settles = true → t.isFinished = true := by simp [hsettles]
  split at haccepts
  · rename_i henabled
    rw [if_pos henabled]
    have hnone : ∀ n, done.value = (none,{ t.exchange with counts := n }) →
        Involvement t op (t.applyAccepted chance done).2 := fun n hn =>
      .keep (applyAccepted_none hn chance).2 hquiet (haccepts.trans (applyAccepted_none hn chance).1) hout
    rcases hdone with ⟨n,hn⟩ | ⟨c,hoffered,he⟩
    · exact hnone n hn
    · cases hclosed : t.exchange.isClosed with
      | true =>
        obtain ⟨n,hn⟩ := Exchange.accept_of_closed hclosed t.decider c
        exact hnone n (he.trans hn)
      | false =>
        obtain ⟨n,hn⟩ := Exchange.accept_of_open hclosed t.decider c
        rw [applyAccepted_some (he.trans hn)] at haccepts ⊢
        exact .accept (hp c hoffered) hclosed haccepts hout rfl rfl rfl rfl rfl
  · rename_i henabled
    rw [if_neg henabled]
    exact .keep (.refl t) hquiet haccepts hout

theorem Involvement.of_createOutbound {i : ℕ} {s : Segment} {c : Carrier} {now : Time}
    {chance : Chance} (hs : t.tree.get? i = some s) (haccepts : t.accepts op = false)
    (hsettles : op.settles = false)
    (hout : t.outbound? op = ((t.createOutbound s.guid c now chance).1.map fun o => (i,o))) :
    Involvement t op (t.createOutbound s.guid c now chance).2.2 := by
  cases henabled : t.settings.distributedTracingEnabled with
  | false =>
    have hnone : t.createOutbound s.guid c now chance = (none,c,t) := by simp [createOutbound,henabled]
    rw [hnone] at hout ⊢
    exact .keep (.refl t) (by simp [hsettles]) haccepts hout
  | true =>
    obtain ⟨t',he,hsame,haccepted,hcreated⟩ := createOutbound_eq henabled s.guid c now chance
    rw [he] at hout ⊢
    exact .create hs hout hsame haccepted hcreated haccepts

theorem involvement_finish (t : Transaction) (stop : Time) (frames : List String) (chance : Chance) :
    Involvement t (.finish stop frames chance) (t.finish stop frames chance).2 := by
  cases hopen : t.isFinished with
  | true =>
    rw [finish_of_ended hopen]
    exact .keep (.refl t) (fun _ => hopen) rfl rfl
  | false =>
    let ended : Transaction := { t.write (t.tree.unfinished.map t.unfinishedRecord) with
      tree := t.tree.close (t.backtrace frames) stop
      stop := ((t.tree.close (t.backtrace frames) stop).get? 0).bind (·.stop) }
    have hsame : t.SameTrace ended := ⟨rfl,rfl,rfl,rfl,rfl,rfl⟩
    have hfinish : (t.finish stop frames chance).2 = (ended.decide chance).2 := by
      unfold Transaction.finish
      rw [if_neg (by simp [hopen])]
    rw [hfinish]
    exact .decide chance (hsame.decide rfl chance) rfl rfl

theorem insertHeaders_of_get? {s : Segment} (hs : t.tree.get? t.tree.current = some s) (c : Carrier)
    (now : Time) (chance : Chance) :
    t.insertHeaders c now chance = .ok (t.createOutbound s.guid c now chance) := by
  simp [insertHeaders,segment_eq,hs,bind,Except.bind,pure,Except.pure]

theorem insertHeaders_of_none (hs : t.tree.get? t.tree.current = none) (c : Carrier) (now : Time)
    (chance : Chance) : t.insertHeaders c now chance = .error (.unknownSegment t.tree.current) := by
  simp [insertHeaders,segment_eq,hs,bind,Except.bind]

theorem requestHeaders_of_get? {id : ℕ} {s : Segment} (hs : t.tree.get? id = some s) (c : Carrier)
    (now : Time) (chance : Chance) :
    t.requestHeaders id c now chance =
      .ok (if s.recordMetrics then t.createOutbound s.guid c now chance else (none,c,t)) := by
  cases hrecord : s.recordMetrics <;>
    simp [requestHeaders,segment_eq,hs,hrecord,bind,Except.bind,pure,Except.pure]

theorem requestHeaders_of_none {id : ℕ} (hs : t.tree.get? id = none) (c : Carrier) (now : Time)
    (chance : Chance) : t.requestHeaders id c now chance = .error (.unknownSegment id) := by
  simp [requestHeaders,segment_eq,hs,bind,Except.bind]

theorem involvement_apply (t : Transaction) (op : Operation) : Involvement t op (t.apply op) := by
  have hquiet : false = true → t.isFinished = true := by simp
  cases op with
  | rename | setForcePersist | setSyntheticsId =>
    exact .keep ⟨rfl,rfl,rfl,rfl,rfl,rfl⟩ hquiet rfl rfl
  | startNamed name o =>
    refine .keep ?_ hquiet rfl rfl
    simp only [apply,startNamed]
    cases required "name" name with
    | error e => exact .refl t
    | ok n => exact t.sameTrace_startSegment n .generic o
  | startKind kind o => exact .keep (t.sameTrace_startSegment _ kind o) hquiet rfl rfl
  | finishSegment | setCurrent | changeSegment | setHostHeader =>
    exact .keep (onSegment (.refl t) _ fun _ _ => ⟨rfl,rfl,rfl,rfl,rfl,rfl⟩) hquiet rfl rfl
  | noticeError id error =>
    refine .keep (onSegment (.refl t) id fun s _ => ?_) hquiet rfl rfl
    cases t.settings.highSecurity <;> cases s.error <;> exact ⟨rfl,rfl,rfl,rfl,rfl,rfl⟩
  | decide chance => exact .decide chance (.refl _) rfl rfl
  | acceptHeaders c chance =>
    exact .of_offer (fun context => (TraceContext.extract c t.entryKey?).value = .ok (some context))
      rfl rfl rfl rfl (fun context h => ⟨_,h⟩) (t.exchange.acceptHeaders_cases t.decider c t.entryKey?)
  | acceptContext c chance =>
    exact .of_offer (fun context => c = context) rfl rfl rfl rfl (fun context h => h) (.inr ⟨c,rfl,rfl⟩)
  | insertHeaders c now chance =>
    cases hs : t.tree.get? t.tree.current with
    | none =>
      have herror := insertHeaders_of_none hs c now chance
      rw [apply,herror]
      exact .keep (.refl t) hquiet rfl (by rw [outbound?,herror]; rfl)
    | some s =>
      have hok := insertHeaders_of_get? hs c now chance
      rw [apply,hok]
      exact .of_createOutbound hs rfl rfl (by rw [outbound?,hok]; rfl)
  | requestHeaders id c now chance =>
    cases hs : t.tree.get? id with
    | none =>
      have herror := requestHeaders_of_none hs c now chance
      rw [apply,herror]
      exact .keep (.refl t) hquiet rfl (by rw [outbound?,herror]; rfl)
    | some s =>
      have hok := requestHeaders_of_get? hs c now chance
      split at hok
      · rw [apply,hok]
        exact .of_createOutbound hs rfl rfl (by rw [outbound?,hok]; rfl)
      · rw [apply,hok]
        exact .keep (.refl t) hquiet rfl (by rw [outbound?,hok]; rfl)
  | finish stop frames chance => exact t.involvement_finish stop frames chance

theorem accepts_of_closed (h : t.exchange.isClosed = true) (op : Operation) : t.accepts op = false := by
  cases involvement_apply t op with
  | keep _ _ haccepts => exact haccepts
  | decide _ _ haccepts => exact haccepts
  | accept _ hopen => simp [h] at hopen
  | create _ _ _ _ _ haccepts => exact haccepts

theorem isClosed_apply (h : t.exchange.isClosed = true) (op : Operation) :
    (t.apply op).exchange.isClosed = true := by
  cases involvement_apply t op with
  | keep hsame => exact hsame.isClosed.trans h
  | decide chance hsame => exact hsame.isClosed.trans ((t.sameTrace_decide chance).isClosed.trans h)
  | accept _ _ _ _ _ _ _ haccepted => simp [Exchange.isClosed,haccepted]
  | create _ _ _ _ hcreated => simp [Exchange.isClosed,hcreated]

theorem neverAccepts_of_closed (h : t.exchange.isClosed = true) (ops : List Operation) :
    t.neverAccepts ops = true := by
  induction ops generalizing t with
  | nil => rfl
  | cons op ops ih =>
    have hrest := ih (isClosed_apply h op)
    rw [neverAccepts] at hrest
    simp [neverAccepts,always,accepts_of_closed h op,hrest]

theorem isClosed_of_accepts (h : t.accepts op = true ∨ (t.outbound? op).isSome = true) :
    (t.apply op).exchange.isClosed = true := by
  cases involvement_apply t op with
  | keep _ _ haccepts hout => simp [haccepts,hout] at h
  | decide _ _ haccepts hout => simp [haccepts,hout] at h
  | accept _ _ _ _ _ _ _ haccepted => simp [Exchange.isClosed,haccepted]
  | create _ _ _ _ hcreated => simp [Exchange.isClosed,hcreated]

theorem apply_of_decided (h : t.sampling = some o) (hn : t.accepts op = false) :
    (t.apply op).traceId = t.traceId ∧ (t.apply op).sampling = some o := by
  cases involvement_apply t op with
  | keep hsame => exact ⟨hsame.traceId,hsame.sampling.trans h⟩
  | decide chance hsame =>
    rw [decide_of_some h] at hsame
    exact ⟨hsame.traceId,hsame.sampling.trans h⟩
  | accept _ _ haccepts => simp [hn] at haccepts
  | @create chance _ _ _ _ _ hsame =>
    rw [decide_of_some h] at hsame
    exact ⟨hsame.traceId,hsame.sampling.trans h⟩

theorem run_of_decided (h : t.sampling = some o) {ops : List Operation}
    (hn : t.neverAccepts ops = true) :
    (t.run ops).traceId = t.traceId ∧ (t.run ops).sampling = some o := by
  induction ops generalizing t with
  | nil => exact ⟨rfl,h⟩
  | cons op ops ih =>
    simp only [neverAccepts,always,Bool.and_eq_true,Bool.not_eq_true'] at hn
    obtain ⟨htrace,hsampling⟩ := apply_of_decided h hn.1
    obtain ⟨htrace',hsampling'⟩ := ih hsampling hn.2
    exact ⟨htrace'.trans htrace,hsampling'⟩

theorem isSome_sampling_decide (t : Transaction) (chance : Chance) :
    (t.decide chance).2.sampling.isSome = true := by
  rw [sampling_decide]
  rfl

theorem isSome_sampling_of_fixes (hended : t.isFinished = true → t.sampling.isSome = true)
    (h : t.fixes op = true) : (t.apply op).sampling.isSome = true := by
  cases involvement_apply t op with
  | keep hsame hsettles haccepts hout =>
    rw [hsame.sampling]
    exact hended (hsettles (by simpa [fixes,haccepts,hout] using h))
  | decide chance hsame =>
    rw [hsame.sampling]
    exact t.isSome_sampling_decide chance
  | accept _ _ _ _ _ _ hdecided => exact hdecided
  | @create chance _ _ _ _ _ hsame =>
    rw [show (t.apply op).sampling = _ from hsame.sampling]
    exact t.isSome_sampling_decide chance

theorem isSome_sampling_apply (h : t.sampling.isSome = true) (op : Operation) :
    (t.apply op).sampling.isSome = true := by
  obtain ⟨o,ho⟩ := Option.isSome_iff_exists.mp h
  cases hn : t.accepts op with
  | false => rw [(apply_of_decided ho hn).2,Option.isSome_some]
  | true => exact isSome_sampling_of_fixes (fun _ => h) (by simp [fixes,hn])

theorem Fresh.decided_of_ended (h : t.Fresh) (ops : List Operation)
    (hf : (t.run ops).isFinished = true) : (t.run ops).sampling.isSome = true := by
  refine (h.reckoned.run_induction (P := fun t => t.isFinished = true → t.sampling.isSome = true)
    (fun {t} op hr hended hf => ?_) (fun hf => ?_) ops).2 hf
  · cases hopen : t.isFinished with
    | true => exact isSome_sampling_apply (hended hopen) op
    | false =>
      obtain ⟨now,frames,chance,rfl,-⟩ := exists_close_of_ended hr.rooted hopen hf
      exact isSome_sampling_of_fixes hended rfl
  · simp [h.isFinished_eq_false] at hf

/-- Whatever fixes the decision, it stands from then on, and the trace with it, unless a context is
accepted later. No context is accepted after one was accepted or created. -/
theorem Fresh.decision_stands (h : t.Fresh) (ops : List Operation) (op : Operation)
    (hfix : (t.run ops).fixes op = true) :
    ∃ o, ((t.run ops).apply op).sampling = some o ∧
      (∀ later, ((t.run ops).apply op).neverAccepts later = true →
        (t.run (ops ++ op::later)).traceId = ((t.run ops).apply op).traceId ∧
        (t.run (ops ++ op::later)).sampling = some o) ∧
      ((t.run ops).accepts op = true ∨ ((t.run ops).outbound? op).isSome = true ∨
          (t.run ops).exchange.isClosed = true →
        ∀ later, ((t.run ops).apply op).neverAccepts later = true) := by
  obtain ⟨o,ho⟩ := Option.isSome_iff_exists.mp (isSome_sampling_of_fixes (h.decided_of_ended ops) hfix)
  refine ⟨o,ho,fun later hn => ?_,fun hclosed later => neverAccepts_of_closed ?_ later⟩
  · rw [run_append]
    exact run_of_decided ho hn
  · rcases hclosed with ha | hc | hc
    · exact isClosed_of_accepts (.inl ha)
    · exact isClosed_of_accepts (.inr hc)
    · exact isClosed_apply hc op

def unlikely : Chance := ⟨fun _ => false,⟨0,Nat.succ_pos _⟩⟩

def keptContext : TraceContext where
  parent := ⟨0,⟨7⟩,⟨8⟩,1⟩
  own := some { accountId := "1", appId := "2", sampled := some true, priority := some .one }

theorem decision_stands_keptContext :
    (plain.run [.decide unlikely]).fixes (.acceptContext keptContext unlikely) = true ∧
    ∃ o, ((plain.run [.decide unlikely]).apply (.acceptContext keptContext unlikely)).sampling = some o ∧
      (∀ later, ((plain.run [.decide unlikely]).apply (.acceptContext keptContext unlikely)).neverAccepts
          later = true →
        (plain.run ([.decide unlikely] ++ .acceptContext keptContext unlikely::later)).traceId =
          ((plain.run [.decide unlikely]).apply (.acceptContext keptContext unlikely)).traceId ∧
        (plain.run ([.decide unlikely] ++ .acceptContext keptContext unlikely::later)).sampling = some o) ∧
      ((plain.run [.decide unlikely]).accepts (.acceptContext keptContext unlikely) = true ∨
          ((plain.run [.decide unlikely]).outbound? (.acceptContext keptContext unlikely)).isSome = true ∨
          (plain.run [.decide unlikely]).exchange.isClosed = true →
        ∀ later, ((plain.run [.decide unlikely]).apply
          (.acceptContext keptContext unlikely)).neverAccepts later = true) := by
  have hfix : (plain.run [.decide unlikely]).fixes (.acceptContext keptContext unlikely) = true := by
    decide +kernel
  exact ⟨hfix,Fresh.decision_stands plain_fresh _ _ hfix⟩

/-- A context that is accepted takes the place of a decision that was asked for before, and does so even
after the end of the transaction. -/
theorem decision_replaced :
    ((plain.run [.decide unlikely]).sampling.map (·.sampled) = some false ∧
      (plain.run [.decide unlikely,.acceptContext keptContext unlikely]).sampling.map (·.sampled) =
        some true ∧
      (plain.run [.decide unlikely,.acceptContext keptContext unlikely]).traceId ≠ plain.traceId) ∧
    (plain.run [.finish 5 [] unlikely]).isFinished = true ∧
      (plain.run [.finish 5 [] unlikely]).sampling.map (·.sampled) = some false ∧
      (plain.run [.finish 5 [] unlikely,.acceptContext keptContext unlikely]).sampling.map (·.sampled) =
        some true := by decide +kernel

end Transaction

end TraceEngine
