import TraceEngine.Propagation.Exchange

/-! What comes of a context that is offered to an exchange: it is taken over as long as the exchange is
open, which it is until a context was accepted or created. -/
namespace TraceEngine

/-- What is taken over from a context under the rules of a decider. -/
def Decider.takenOver (d : Decider) (c : TraceContext) : AcceptedTrace where
  traceId := c.traceId
  parentId := c.parentId
  parentTransactionId := c.own.bind (·.transactionId)
  role := .remote (some c.parent.isSampled)
  inherited := d.remote (.remote (some c.parent.isSampled)) c.traceId c.inherited

/-- The counts after a context was taken over. Its own entry may be missing, or be there and not readable. -/
def ExchangeCounts.taken (n : ExchangeCounts) (c : TraceContext) : ExchangeCounts :=
  { n with
    acceptSuccess := n.acceptSuccess + 1
    invalidOwnEntry := n.invalidOwnEntry + c.ownInvalid.toNat
    noOwnEntry := n.noOwnEntry + (!c.ownInvalid && c.own.isNone).toNat }

namespace Exchange

def isClosed (x : Exchange) : Bool := x.accepted.isSome || x.created

theorem accept_of_accepted {x : Exchange} (h : x.accepted.isSome = true) (d : Decider) (c : TraceContext) :
    (x.accept d c).value =
      (none,{ x with counts := { x.counts with ignoredMultipleAccept := x.counts.ignoredMultipleAccept + 1 } }) := by
  simp [accept,h]

theorem accept_of_created {x : Exchange} (h : x.accepted = none) (hcreated : x.created = true) (d : Decider)
    (c : TraceContext) :
    (x.accept d c).value =
      (none,{ x with
        counts := { x.counts with ignoredCreateBeforeAccept := x.counts.ignoredCreateBeforeAccept + 1 } }) := by
  simp [accept,h,hcreated]

theorem accept_of_closed {x : Exchange} (h : x.isClosed = true) (d : Decider) (c : TraceContext) :
    ∃ n, (x.accept d c).value = (none,{ x with counts := n }) := by
  by_cases haccepted : x.accepted.isSome = true
  · exact ⟨_,accept_of_accepted haccepted d c⟩
  · have hnone : x.accepted = none := by simpa using haccepted
    exact ⟨_,accept_of_created hnone (by simpa [isClosed,hnone] using h) d c⟩

theorem accept_eq_taken {x : Exchange} (h : x.isClosed = false) (d : Decider) (c : TraceContext) :
    (x.accept d c).value = (some (d.takenOver c),{ x with accepted := some c, counts := x.counts.taken c }) := by
  obtain ⟨haccepted,hcreated⟩ : x.accepted = none ∧ x.created = false := by simpa [isClosed] using h
  cases hinvalid : c.ownInvalid <;> cases hown : c.own <;>
    simp [accept,haccepted,hcreated,hinvalid,hown,ExchangeCounts.taken,Decider.takenOver]

theorem accept_of_open {x : Exchange} (h : x.isClosed = false) (d : Decider) (c : TraceContext) :
    ∃ n, (x.accept d c).value = (some (d.takenOver c),{ x with accepted := some c,counts := n }) :=
  ⟨_,accept_eq_taken h d c⟩

theorem acceptHeaders_cases (x : Exchange) (d : Decider) (c : Carrier) (key : Option String) :
    (∃ n, (x.acceptHeaders d c key).value = (none,{ x with counts := n })) ∨
      ∃ context, (TraceContext.extract c key).value = .ok (some context) ∧
        (x.acceptHeaders d c key).value = (x.accept d context).value := by
  unfold acceptHeaders
  rw [Logged.value_bind]
  cases h : (TraceContext.extract c key).value with
  | error e => exact .inl ⟨_,rfl⟩
  | ok context? =>
    cases context? with
    | none => exact .inl ⟨_,rfl⟩
    | some context => exact .inr ⟨context,rfl,rfl⟩

theorem acceptHeaders_of_extract (x : Exchange) (d : Decider) {c : Carrier} {key : Option String}
    {context : TraceContext} (h : (TraceContext.extract c key).value = .ok (some context)) :
    (x.acceptHeaders d c key).value = (x.accept d context).value := by
  unfold acceptHeaders
  rw [Logged.value_bind,h]

end Exchange

end TraceEngine
