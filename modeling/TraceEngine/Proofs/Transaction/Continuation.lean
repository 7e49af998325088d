import TraceEngine.Proofs.Propagation.Context
import TraceEngine.Proofs.Transaction.Outbound

/-! A trace that goes from one transaction to another. What the first writes on a request without
headers the second accepts and continues, with the decision of the first. It does not if the first has
no account or no application: the entry that it writes then cannot be read. -/
namespace TraceEngine

open Text

/-- The name of an account or of an application that can stand in an own entry. -/
def IsEntryId (id : String) : Prop := id ≠ "" ∧ '-' ∉ id.toList ∧ Plain id.toList

instance (id : String) : Decidable (IsEntryId id) := inferInstanceAs (Decidable (_ ∧ _ ∧ _))

/-- The settings under which the own entry of a transaction can be read. -/
structure Settings.Traced (s : Settings) (key : String) : Prop where
  enabled : s.distributedTracingEnabled = true
  entryKey : entryKey? s.trustedAccountKey s.accountId = some key
  isKey : TraceState.IsKey key
  accountId : ∃ id, s.accountId = some id ∧ IsEntryId id
  applicationId : ∃ id, s.primaryApplicationId = some id ∧ IsEntryId id

/-- All contexts that an operation hands in were read from the headers of a request. -/
def Operation.handsInRead (op : Operation) : Prop :=
  ∀ context, op.handsIn context → ∃ c key, (TraceContext.extract c key).value = .ok (some context)

namespace Transaction

variable {t a b : Transaction} {o : Outcome} {key : String}

/-- A state that a transaction comes to with contexts that were read from headers. -/
def Reached (a : Transaction) : Prop :=
  ∃ (t : Transaction) (ops : List Operation), t.Fresh ∧ (∀ op ∈ ops, op.handsInRead) ∧ a = t.run ops

/-- A new transaction that inherits the decision on a trace which it continues. -/
structure Follower (b : Transaction) (key : String) : Prop where
  fresh : b.Fresh
  enabled : b.settings.distributedTracingEnabled = true
  entryKey : b.entryKey? = some key
  sampled : b.decider.rules.remoteParentSampled = .free
  notSampled : b.decider.rules.remoteParentNotSampled = .free

def requestContext (t : Transaction) (id? : Option ℕ) (c : Carrier) (now : Time) (chance : Chance) :
    Except SegmentFault (Option OutboundContext × Carrier × Transaction) :=
  match id? with
  | none => t.insertHeaders c now chance
  | some id => t.requestHeaders id c now chance

theorem requestContext_eq {id? : Option ℕ} {s : Segment}
    (hs : t.tree.get? (id?.getD t.tree.current) = some s) (hrecord : id?.isSome = true → s.recordMetrics = true)
    (c : Carrier) (now : Time) (chance : Chance) :
    t.requestContext id? c now chance = .ok (t.createOutbound s.guid c now chance) := by
  cases id? with
  | none => exact insertHeaders_of_get? hs c now chance
  | some id =>
    have hs' : t.tree.get? id = some s := hs
    rw [requestContext,requestHeaders_of_get? hs',if_pos (hrecord rfl)]

def others (t : Transaction) : List String := (t.exchange.accepted.map (·.others)).getD []

def OthersPrinted (t : Transaction) : Prop := ∀ m ∈ t.others, ∀ c ∈ m.toList, TraceState.isPrintable c = true

theorem OthersPrinted.apply (h : t.OthersPrinted) {op : Operation} (hop : op.handsInRead) :
    (t.apply op).OthersPrinted := by
  have hkeep (he : (t.apply op).exchange.accepted = t.exchange.accepted) : (t.apply op).OthersPrinted := by
    rwa [OthersPrinted,others,he]
  cases involvement_apply t op with
  | keep hsame => exact hkeep hsame.accepted
  | decide chance hsame => exact hkeep (hsame.accepted.trans (t.sameTrace_decide chance).accepted)
  | accept hc _ _ _ _ _ _ haccepted =>
    obtain ⟨c,key,hread⟩ := hop _ hc
    simpa [OthersPrinted,others,haccepted] using TraceContext.printable_extract hread
  | create _ _ _ haccepted => exact hkeep haccepted

theorem OthersPrinted.run (h : t.OthersPrinted) {ops : List Operation} (hops : ∀ op ∈ ops, op.handsInRead) :
    (t.run ops).OthersPrinted := by
  induction ops generalizing t with
  | nil => exact h
  | cons op ops ih => exact ih (h.apply (hops op (by simp))) fun op hop => hops op (by simp [hop])

theorem Reached.othersPrinted (ha : a.Reached) : a.OthersPrinted := by
  obtain ⟨t,ops,⟨_,_,_,_,_,_,_,rfl⟩,hops,rfl⟩ := ha
  exact OthersPrinted.run (by simp [OthersPrinted,others,make]) hops

theorem isEntryId_text {bytes : ℕ} (id : Identifier (bytes + 1)) : IsEntryId id.text := by
  have hcode : ∀ c ∈ id.text.toList, 48 ≤ c.toNat ∧ c.toNat ≤ 102 := by
    intro c hc
    exact toNat_of_isLowerHex (Identifier.isLowerHex_of_mem_digits (by simpa [Identifier.text] using hc))
  refine ⟨fun hempty => ?_,fun hdash => ?_,plain_of_toNat fun c hc => ?_⟩
  · have hlen := id.length_digits
    have hnil : id.digits = [] := by simpa [Identifier.text] using hempty
    simp [hnil] at hlen
  · simpa using hcode _ hdash
  · have h := hcode c hc
    omega

theorem exists_entry (hs : t.settings.Traced key) (ho : o.priority.value.Moderate) (spanId : SpanId)
    (now : Time) :
    ∃ p, (t.contextFor o spanId now).entry = some (key,p) ∧ TraceState.IsEntry (key,p) := by
  obtain ⟨account,haccount,hid,hdash,hplain⟩ := hs.accountId
  obtain ⟨app,happ,hid',hdash',hplain'⟩ := hs.applicationId
  have hspan := isEntryId_text spanId
  have hguid := isEntryId_text t.guid
  have hkey : t.entryKey? = some key := hs.entryKey
  have hmillis : now / Nat.pow 10 6 % Nat.pow 2 64 < 2 ^ 64 := Nat.mod_lt _ (by decide)
  refine ⟨_,by rw [contextFor,hkey]; rfl,hs.isKey,?_,?_⟩
  · exact
      { version := by simp
        accountId := by simp [haccount,hid,hdash]
        appId := by simp [happ,hid',hdash']
        id := by simp [hspan.1,hspan.2.1]
        transactionId := by simp [hguid.1,hguid.2.1]
        priority := by simpa using ho
        timestamp := Nat.mod_lt _ (by decide) }
  · exact
      { accountId := by simpa [haccount] using hplain
        appId := by simpa [happ] using hplain'
        id := by simpa using hspan.2.2
        transactionId := by simpa using hguid.2.2 }

/-- What is read from a request on which a context was written: the identifiers, the flag, and the own
entry, in front of whatever else is passed on. -/
theorem extract_contextFor (hs : t.settings.Traced key) (ho : o.priority.value.Moderate)
    (hothers : t.OthersPrinted) (htrace : t.traceId.isValid = true) {spanId : SpanId}
    (hspan : spanId.isValid = true) (now : Time) {c : Carrier} (hc : c.fields = []) :
    ∃ p others, p.transactionId = some t.guid.text ∧ p.sampled = some o.sampled ∧
      p.priority = some (.denoted Priority.places (StatePayload.priorityText (some o.priority.value))) ∧
      (TraceContext.extract ((t.contextFor o spanId now).inject c).value (some key)).value =
        .ok (some ⟨⟨0,t.traceId,spanId,o.sampled.toNat⟩,some p,false,others⟩) := by
  obtain ⟨p,hentry,he⟩ := exists_entry hs ho spanId now
  obtain ⟨hsampled,hpriority,-,htransaction⟩ := (t.names_contextFor o spanId now).entry key p hentry
  obtain ⟨others,hread⟩ := TraceState.read_entry he hothers
  have hstate : (TraceState.read (some key) (TraceState.text (t.contextFor o spanId now).entry t.others)).value =
      { own := some p.rounded, others := others } := by rw [hentry,hread]
  exact ⟨p.rounded,others,htransaction,hsampled,by simp [StatePayload.rounded,hpriority],
    OutboundContext.extract_of_text (o := t.contextFor o spanId now) htrace hspan hc hstate⟩

theorem moderate_drawn (sampled : Bool) (millionths : Fin 1000000) :
    (Priority.drawn sampled millionths).value.Moderate := by
  have hle : sampled.toNat * 10 ^ 6 + millionths ≤ 2 ^ 1 * 10 ^ 6 := by
    cases sampled <;> simp <;> omega
  exact (Binary64.bounded_ofDecimal hle (by decide)).moderate (by decide)

theorem moderate_root (d : Decider) (id : TraceId) (chance : Chance) :
    ((d.root id).outcome chance).priority.value.Moderate := by
  have hkeep : Priority.keep.value.Moderate := by decide +kernel
  have hdrop : Priority.drop.value.Moderate := by decide +kernel
  unfold Decider.root
  cases d.rules.root.fixed? id with
  | none => exact moderate_drawn _ _
  | some sampled =>
    cases sampled with
    | false => exact hdrop
    | true => exact hkeep

theorem moderate_decide (h : ∀ o ∈ t.sampling, o.priority.value.Moderate) (chance : Chance) :
    (t.decide chance).1.priority.value.Moderate := by
  unfold decide
  split
  · exact h _ ‹_›
  · exact moderate_root t.decider t.traceId chance

theorem Follower.accept (hb : b.Follower key) {c : Carrier} {context : TraceContext} {p : StatePayload}
    (hread : (TraceContext.extract c (some key)).value = .ok (some context)) (hown : context.own = some p)
    {sampled : Bool} {x : Binary64} (hsampled : p.sampled = some sampled) (hpriority : p.priority = some x)
    (chance : Chance) :
    ∃ b', b.acceptHeaders c chance = (true,b') ∧ b'.traceId = context.traceId ∧
      b'.parentTrace.map (·.parentId) = some context.parentId ∧
      b'.parentTrace.bind (·.parentTransactionId) = p.transactionId ∧
      b'.sampling = some ⟨sampled,.rounded x⟩ ∧ b'.consulted = [] := by
  obtain ⟨hopen,hconsulted⟩ : b.exchange.isClosed = false ∧ b.consulted = [] := by
    obtain ⟨_,_,_,_,_,_,_,rfl⟩ := hb.fresh
    exact ⟨rfl,rfl⟩
  obtain ⟨n,hn⟩ := Exchange.accept_of_open hopen b.decider context
  have haccept := (Exchange.acceptHeaders_of_extract b.exchange b.decider hread).trans hn
  have hinherited : context.inherited = ⟨some sampled,some x⟩ := by
    simp [TraceContext.inherited,hown,StatePayload.inherited,hsampled,hpriority]
  have hfree : b.decider.rules.get (.remote (some context.parent.isSampled)) = .free := by
    cases context.parent.isSampled with
    | false => exact hb.notSampled
    | true => exact hb.sampled
  have hdecision : (b.decider.takenOver context).decision = .settled ⟨sampled,.rounded x⟩ := by
    simp [AcceptedTrace.decision,Decider.takenOver,Decider.remote,hfree,RoleRule.fixed?,hinherited,Inherited.normal,
      Decider.settle]
  have haccepted : b.acceptHeaders c chance =
      b.applyAccepted chance (b.exchange.acceptHeaders b.decider c (some key)) := by
    rw [acceptHeaders,if_pos hb.enabled,hb.entryKey]
  refine ⟨_,haccepted.trans (applyAccepted_some haccept chance),rfl,rfl,?_,?_,?_⟩
  · simp [Decider.takenOver,hown]
  · rw [hdecision]
    rfl
  · simp [hdecision,hconsulted,Decision.consulted]

/-- What a transaction writes on a request without headers is continued by a new transaction with the same entry key: it
takes over the trace, the calling segment as parent, the guid of the transaction, and the decision with the priority
that the text denotes, without asking a sampler of its own. Without an account and an application that can stand in an
entry this does not hold. -/
theorem Follower.continues (hb : b.Follower key) (ha : a.Reached) (hs : a.settings.Traced key)
    (htrace : a.traceId.isValid = true) (hpriority : ∀ o ∈ a.sampling, o.priority.value.Moderate)
    {id? : Option ℕ} {s : Segment} (hget : a.tree.get? (id?.getD a.tree.current) = some s)
    (hguid : s.guid.isValid = true) (hrecord : id?.isSome = true → s.recordMetrics = true) {c : Carrier}
    (hc : c.fields = []) (now : Time) (chance chance' : Chance) :
    ∃ o c' a' decided b', a.requestContext id? c now chance = .ok (some o,c',a') ∧
      a'.sampling = some decided ∧ b.acceptHeaders c' chance' = (true,b') ∧
      b'.traceId = a.traceId ∧ b'.parentTrace.map (·.parentId) = some s.guid ∧
      b'.intrinsics.lookup "parentId" = some (.string a.guid.text) ∧
      b'.sampling = some ⟨decided.sampled,
        .rounded (.denoted Priority.places (StatePayload.priorityText (some decided.priority.value)))⟩ ∧
      b'.consulted = [] := by
  obtain ⟨a',hcreate,hsame,-⟩ := createOutbound_eq hs.enabled s.guid c now chance
  have hmoderate := moderate_decide hpriority chance
  obtain ⟨p,others,htransaction,hsampled,hp,hread⟩ :=
    extract_contextFor hs hmoderate ha.othersPrinted htrace hguid now hc
  obtain ⟨b',haccept,htraceId,hparent,hparentTransaction,hsampling,hconsulted⟩ :=
    hb.accept hread rfl hsampled hp chance'
  have hdecided : a'.sampling = some (a.decide chance).1 := hsame.sampling.trans (sampling_decide a chance)
  refine ⟨_,_,a',_,b',(requestContext_eq hget hrecord c now chance).trans (by rw [hcreate]),hdecided,haccept,htraceId,
    hparent,?_,hsampling,hconsulted⟩
  simp [intrinsics,hsampling,hparentTransaction,htransaction,List.lookup_cons]

def certain : Chance := { unlikely with answer := fun _ => true }

/-- An account and an application, and no account that is trusted beside them. -/
def ownAccount : Settings := { accountId := some "1", primaryApplicationId := some "2" }

def caller (settings : Settings) : Transaction := make "caller" ⟨1⟩ ⟨2⟩ ⟨3⟩ 0 settings ⟨.same .free⟩

def callee (settings : Settings) : Transaction := make "callee" ⟨4⟩ ⟨5⟩ ⟨6⟩ 0 settings ⟨.same .free⟩

/-- A segment is current that is not the root. -/
def calling (settings : Settings) : Transaction :=
  (caller settings).run [.startNamed "call" { guid := ⟨9⟩, start := 1 }]

theorem continues_ownAccount :
    (callee ownAccount).Follower "1@nr" ∧ (calling ownAccount).Reached ∧ (calling ownAccount).settings.Traced "1@nr" ∧
      ∃ o c' a' decided b', (calling ownAccount).requestContext none (.list []) 7 certain = .ok (some o,c',a') ∧
        a'.sampling = some decided ∧ (callee ownAccount).acceptHeaders c' unlikely = (true,b') ∧
        b'.traceId = ⟨3⟩ ∧ b'.parentTrace.map (·.parentId) = some ⟨9⟩ ∧
        b'.intrinsics.lookup "parentId" = some (.string "0000000000000001") ∧
        b'.sampling = some ⟨decided.sampled,
          .rounded (.denoted Priority.places (StatePayload.priorityText (some decided.priority.value)))⟩ ∧
        b'.consulted = [] := by
  have hb : (callee ownAccount).Follower "1@nr" := ⟨⟨_,_,_,_,_,_,_,rfl⟩,rfl,rfl,rfl,rfl⟩
  have ha : (calling ownAccount).Reached := by
    refine ⟨caller ownAccount,_,⟨_,_,_,_,_,_,_,rfl⟩,?_,rfl⟩
    simp [Operation.handsInRead,Operation.handsIn]
  have hs : (calling ownAccount).settings.Traced "1@nr" :=
    ⟨rfl,rfl,by decide +kernel,⟨"1",rfl,by decide +kernel⟩,⟨"2",rfl,by decide +kernel⟩⟩
  obtain ⟨s,hget,hguid⟩ : ∃ s, (calling ownAccount).tree.get? ((none : Option ℕ).getD
      (calling ownAccount).tree.current) = some s ∧ s.guid = ⟨9⟩ := ⟨_,rfl,rfl⟩
  have hpriority : ∀ o ∈ (calling ownAccount).sampling, o.priority.value.Moderate := fun o ho => nomatch ho
  have h := hb.continues (c := .list []) ha hs (by decide +kernel) hpriority hget (by rw [hguid]; decide)
    (by simp) rfl 7 certain unlikely
  rw [hguid] at h
  exact ⟨hb,ha,hs,h⟩

/-- What the two sides have when a request was made between them: the flag of the one, that of the other, and the
samplers that the other asked. -/
def agreed (settings : Settings) : Option (Option Bool × Option Bool × List SamplerRole) :=
  match (caller settings).insertHeaders (.list []) 0 certain with
  | .ok (_,c,a) =>
    let b := ((callee settings).acceptHeaders c unlikely).2
    some (a.sampling.map (·.sampled),b.sampling.map (·.sampled),b.consulted)
  | .error _ => none

/-- An entry without an application, or without an account beside the trusted one, is written, but not read: the trace
is kept by the one side and not by the other, which decided anew. -/
theorem decision_lost :
    ((caller { accountId := some "1" }).entryKey? = some "1@nr" ∧
      agreed { accountId := some "1" } = some (some true,some false,[.remoteParentSampled])) ∧
    (caller { trustedAccountKey := some "1", primaryApplicationId := some "2" }).entryKey? = some "1@nr" ∧
      agreed { trustedAccountKey := some "1", primaryApplicationId := some "2" } =
        some (some true,some false,[.remoteParentSampled]) := by decide +kernel

end Transaction

end TraceEngine
