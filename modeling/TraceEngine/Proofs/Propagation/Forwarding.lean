import TraceEngine.Proofs.Propagation.Context
import TraceEngine.Proofs.Propagation.Counts

/-! Members of others on their way through an exchange: what is read from the state headers of an inbound request is
kept, and written behind the own entry on every request that goes out later. -/
namespace TraceEngine

open Text

/-- The members of others in the state headers of a request, header after header. Those without a value and those under
the own name are left out, and one character that cannot be printed spoils them all. -/
def Carrier.foreignMembers (c : Carrier) (key : String) : List (List Char) :=
  let headers := (c.values stateHeader).map String.toList
  if headers.all (·.all TraceState.isPrintable) then
    headers.flatMap fun header =>
      ((header.splitOn ',').map trim).filter fun m => !m.isEmpty && decide ('=' ∈ m) && TraceState.nameOf m != key
  else []

theorem Carrier.joined?_eq (c : Carrier) (name : String) :
    (c.joined? name).map String.toList =
      if c.values name = [] then none
      else some ([','].intercalate (((c.values name).map String.toList).filter (!·.isEmpty))) := by
  have hempty : (fun s : String => !s.isEmpty) = (fun s : List Char => !s.isEmpty) ∘ String.toList := by
    funext s
    rw [Bool.eq_iff_iff]
    simp only [Function.comp,Bool.not_eq_true',String.isEmpty_iff,List.isEmpty_iff,String.toList_eq_nil_iff,
      ← Bool.not_eq_true]
  cases hvalues : c.values name with
  | nil => simp [joined?,getAll?,hvalues]
  | cons header headers =>
    rw [List.filter_map,← hempty]
    simp [joined?,getAll?,hvalues,String.toList_intercalate]

namespace TraceState

theorem members_nil : members [] = [] := by decide

theorem flatMap_members_filter (headers : List (List Char)) :
    (headers.filter (!·.isEmpty)).flatMap members = headers.flatMap members := by
  induction headers with
  | nil => rfl
  | cons header headers ih => cases header <;> simp [ih,members_nil]

theorem all_isPrintable_intercalate (headers : List (List Char)) :
    ([','].intercalate (headers.filter (!·.isEmpty))).all isPrintable = headers.all (·.all isPrintable) := by
  rw [Bool.eq_iff_iff]
  simp only [List.all_eq_true]
  constructor
  · intro h header hheader c hc
    refine h c (mem_intercalate_of_mem (a := header) ?_ hc)
    cases header <;> simp_all
  · intro h
    refine forall_mem_intercalate (by simp [isPrintable]) fun header hheader => ?_
    exact h header (List.mem_of_mem_filter hheader)

theorem filter_members (key : String) (header : List Char) :
    (members header).filter (isPassedOn (some key)) =
      ((header.splitOn ',').map trim).filter fun m => !m.isEmpty && decide ('=' ∈ m) && nameOf m != key := by
  rw [members,List.filter_filter]
  refine List.filter_congr fun m _ => ?_
  have hname : (some key != some (nameOf m)) = (nameOf m != key) := by
    rw [Bool.eq_iff_iff,bne_iff_ne,bne_iff_ne,ne_eq,Option.some.injEq]
    exact not_congr eq_comm
  rw [isPassedOn,hname,Bool.and_comm,Bool.and_assoc]

end TraceState

theorem TraceContext.others_eq {c : Carrier} {key : String} {context : TraceContext}
    (h : (extract c (some key)).value = .ok (some context)) :
    context.others = (c.foreignMembers key).map String.ofList := by
  have hjoined := c.joined?_eq stateHeader
  rw [others_extract h]
  cases hs : c.joined? stateHeader with
  | none =>
    have hvalues : c.values stateHeader = [] := by simpa [hs] using hjoined
    simp [Carrier.foreignMembers,hvalues]
  | some s =>
    have htext : s.toList = [','].intercalate (((c.values stateHeader).map String.toList).filter (!·.isEmpty)) := by
      rw [hs] at hjoined
      split at hjoined <;> simp_all
    simp only [Option.map_some,Option.getD_some,TraceState.read,htext,TraceState.all_isPrintable_intercalate,
      Carrier.foreignMembers]
    split
    · rw [TraceState.members_intercalate,TraceState.flatMap_members_filter,TraceState.others_foldlM,
        List.filter_flatMap]
      simp [TraceState.filter_members]
    · rfl

/-- The members of others stay whole, and none of them is under the own name. -/
theorem Carrier.of_mem_foreignMembers {c : Carrier} {key : String} {m : List Char} (h : m ∈ c.foreignMembers key) :
    TraceState.IsPiece m ∧ TraceState.nameOf m ≠ key := by
  simp only [foreignMembers] at h
  split at h
  · obtain ⟨header,-,hm⟩ := List.mem_flatMap.1 h
    obtain ⟨hm,hkept⟩ := List.mem_filter.1 hm
    obtain ⟨piece,hpiece,rfl⟩ := List.mem_map.1 hm
    simp only [Bool.and_eq_true,Bool.not_eq_true',List.isEmpty_eq_false_iff,decide_eq_true_eq,bne_iff_ne] at hkept
    exact ⟨⟨hkept.1.1,trim_trim piece,fun hc => notMem_of_mem_splitOn hpiece (mem_of_mem_trim hc)⟩,hkept.2⟩
  · simp at h

theorem OutboundContext.values_inject {o : OutboundContext} (htrace : o.traceId.isValid = true)
    (hparent : o.parentId.isValid = true) (h : TraceState.text o.entry o.others ≠ "") (c : Carrier) :
    (o.inject c).value.values stateHeader = [TraceState.text o.entry o.others] := by
  simp [inject,htrace,hparent,h]

namespace Exchange

variable {x : Exchange} {d : Decider} {c : Carrier} {key : String}

theorem accepted_of_acceptHeaders {key : Option String} (h : (x.acceptHeaders d c key).value.1.isSome = true) :
    ∃ context, (TraceContext.extract c key).value = .ok (some context) ∧
      (x.acceptHeaders d c key).value.2.accepted = some context := by
  rcases x.acceptHeaders_cases d c key with ⟨n,hn⟩ | ⟨context,hread,he⟩
  · simp [hn] at h
  · cases hclosed : x.isClosed with
    | true =>
      obtain ⟨n,hn⟩ := accept_of_closed hclosed d context
      simp [he,hn] at h
    | false =>
      obtain ⟨n,hn⟩ := accept_of_open hclosed d context
      exact ⟨context,hread,by rw [he,hn]⟩

def ownMember (r : OutboundRequest) (key : String) : List Char := key.toList ++ '='::(ownEntry r key).2.text.toList

theorem nameOf_ownMember (r : OutboundRequest) (hblank : NoBlank key.toList) (hvalue : '=' ∉ key.toList) :
    TraceState.nameOf (ownMember r key) = key := by
  have hname : ∀ a ∈ key.toList, (a != '=') = true := fun a ha => bne_iff_ne.2 fun h => hvalue (h ▸ ha)
  simp [TraceState.nameOf,ownMember,List.takeWhile_append_of_pos hname,trim_of_noBlank hblank]

theorem isPiece_ownMember {r : OutboundRequest} (hblank : NoBlank key.toList) (hcomma : ',' ∉ key.toList)
    (htext : ',' ∉ (ownEntry r key).2.text.toList) : TraceState.IsPiece (ownMember r key) :=
  ⟨by simp [ownMember],TraceState.trim_entry hblank _,by simp [ownMember,hcomma,htext]⟩

theorem values_insertHeaders {context : TraceContext} (haccepted : x.accepted = some context)
    (hothers : context.others = (c.foreignMembers key).map String.ofList) {r : OutboundRequest}
    (hkey : r.key = some key) (htrace : r.traceId.isValid = true) (hspan : r.spanId.isValid = true) (out : Carrier) :
    ∃ value, (x.insertHeaders r out).value.2.2.values stateHeader = [value] ∧
      value.toList = [','].intercalate ((ownMember r key::c.foreignMembers key).take 32) := by
  let o := (x.create r).1
  have hentry : o.entry = some (ownEntry r key) := by simp [o,create,hkey]
  have hforeign : o.others = (c.foreignMembers key).map String.ofList := by simp [o,create,haccepted,hothers]
  have htext : (TraceState.text o.entry o.others).toList =
      [','].intercalate ((ownMember r key::c.foreignMembers key).take 32) := by
    rw [TraceState.text_eq,hentry,hforeign,String.toList_intercalate]
    simp [TraceState.written,maxMembers,TraceState.toList_entryText,ownMember,ownEntry,← List.map_take,List.map_map,
      Function.comp_def]
  have hne : TraceState.text o.entry o.others ≠ "" := by
    intro hempty
    rw [hempty,List.take_succ_cons] at htext
    cases hrest : (c.foreignMembers key).take 31 <;> simp [hrest,ownMember,List.intercalate_cons_cons] at htext
  exact ⟨_,OutboundContext.values_inject (o := o) htrace hspan hne out,htext⟩

/-- Once the headers of a request were accepted, every state header that is written under the same name has the own
entry first, then what others put into the inbound headers: the members with a value that are not under the own name,
without blanks at their ends, in their order over all headers, and 32 members in all. They are found again when the
header is read, the own entry is the only one under its name, and it is alone if one inbound character cannot be
printed. -/
theorem forwards (haccept : (x.acceptHeaders d c (some key)).value.1.isSome = true) (hblank : NoBlank key.toList)
    (hcomma : ',' ∉ key.toList) (hvalue : '=' ∉ key.toList) (calls : List ExchangeCall) {r : OutboundRequest}
    (hkey : r.key = some key) (htrace : r.traceId.isValid = true) (hspan : r.spanId.isValid = true)
    (htext : ',' ∉ (ownEntry r key).2.text.toList) (out : Carrier) :
    ∃ value, (((x.acceptHeaders d c (some key)).value.2.run calls).insertHeaders r out).value.2.2.values stateHeader =
        [value] ∧
      value.toList = [','].intercalate ((ownMember r key::c.foreignMembers key).take 32) ∧
      TraceState.members value.toList = (ownMember r key::c.foreignMembers key).take 32 ∧
      (TraceState.members value.toList).filter (TraceState.nameOf · = key) = [ownMember r key] ∧
      ((∃ header ∈ c.values stateHeader, ∃ a ∈ header.toList, TraceState.isPrintable a = false) →
        value.toList = ownMember r key) := by
  obtain ⟨context,hread,haccepted⟩ := accepted_of_acceptHeaders haccept
  have hsome : (x.acceptHeaders d c (some key)).value.2.accepted.isSome = true := by rw [haccepted]; rfl
  have hkept := accepted_run hsome calls
  obtain ⟨value,hvalues,hwritten⟩ := values_insertHeaders (hkept.trans haccepted) (TraceContext.others_eq hread) hkey
    htrace hspan out
  have hmembers : TraceState.members value.toList = (ownMember r key::c.foreignMembers key).take 32 := by
    rw [hwritten,TraceState.members_intercalate,TraceState.flatMap_members]
    intro m hm
    rcases List.mem_cons.1 (List.mem_of_mem_take hm) with rfl | hm
    · exact isPiece_ownMember hblank hcomma htext
    · exact (Carrier.of_mem_foreignMembers hm).1
  refine ⟨value,hvalues,hwritten,hmembers,?_,?_⟩
  · have hforeign : ((c.foreignMembers key).take 31).filter (TraceState.nameOf · = key) = [] :=
      List.filter_eq_nil_iff.2 fun m hm => by
        simpa using (Carrier.of_mem_foreignMembers (List.mem_of_mem_take hm)).2
    rw [hmembers,List.take_succ_cons,List.filter_cons_of_pos (by simp [nameOf_ownMember r hblank hvalue]),hforeign]
  · rintro ⟨header,hheader,a,ha,hspoilt⟩
    have hnone : c.foreignMembers key = [] := by
      refine if_neg fun hall => ?_
      simp only [List.all_map,List.all_eq_true,Function.comp] at hall
      simp [hall header hheader a ha] at hspoilt
    rw [hwritten,hnone]
    simp

/-- Two state headers with members of others, a member without a value, and two own entries, of which the first cannot
be read. -/
def repeatedState : Carrier :=
  .list [("traceparent","00-000000000000000000000000000000a1-00000000000000b2-01"),
    ("tracestate","rojo=1, 33@nr=stale,,novalue"),("TraceState"," congo=t61=x ,33@nr =0-0-1-2-3-4-1-1.5-7")]

def laterRequest : OutboundRequest where
  traceId := .ofNat 0xa1
  spanId := .ofNat 0xc3
  transactionId := .ofNat 0xd4
  sampled := true
  priority := .ofDecimal 15 1
  key := some "33@nr"
  accountId := some "33"
  applicationId := some "5"
  timestamp := 9

/-- What an exchange under the account 33 has after it was offered the two headers. -/
def afterRepeatedState : Logged (Option AcceptedTrace × Exchange) :=
  acceptHeaders {} ⟨.same .free⟩ repeatedState (some "33@nr")

theorem forwards_repeatedState :
    afterRepeatedState.value.1.isSome = true ∧ NoBlank "33@nr".toList ∧ ',' ∉ "33@nr".toList ∧ '=' ∉ "33@nr".toList ∧
      ',' ∉ (ownEntry laterRequest "33@nr").2.text.toList ∧
      ∃ value, ((afterRepeatedState.value.2.run [.create laterRequest]).insertHeaders laterRequest
          (.map [("tracestate","old=1")])).value.2.2.values stateHeader = [value] ∧
        TraceState.members value.toList = [ownMember laterRequest "33@nr","rojo=1".toList,"congo=t61=x".toList] ∧
        (TraceState.members value.toList).filter (TraceState.nameOf · = "33@nr") =
          [ownMember laterRequest "33@nr"] := by
  have haccept : afterRepeatedState.value.1.isSome = true := by decide +kernel
  have hblank : NoBlank "33@nr".toList := by decide
  have hcomma : ',' ∉ "33@nr".toList := by decide
  have hvalue : '=' ∉ "33@nr".toList := by decide
  have htext : ',' ∉ (ownEntry laterRequest "33@nr").2.text.toList := by decide +kernel
  have hforeign : repeatedState.foreignMembers "33@nr" = ["rojo=1".toList,"congo=t61=x".toList] := by decide +kernel
  obtain ⟨value,hvalues,-,hmembers,hown,-⟩ := forwards haccept hblank hcomma hvalue [.create laterRequest]
    (r := laterRequest) rfl (by decide) (by decide) htext (.map [("tracestate","old=1")])
  rw [hforeign] at hmembers
  exact ⟨haccept,hblank,hcomma,hvalue,htext,value,hvalues,hmembers,hown⟩

end Exchange

end TraceEngine
