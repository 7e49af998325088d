import Mathlib.Data.List.Induction
import TraceEngine.Proofs.Propagation.Exchange

/-! Calls of an exchange in any order, and its counts after them. Every context that is offered is counted once: the
first one as accepted, unless an outbound one was created before, and all others as refused. -/
namespace TraceEngine

/-- The calls that the owner of an exchange may make, each with all that is passed to it. -/
inductive ExchangeCall
  | accept (d : Decider) (c : TraceContext)
  | acceptHeaders (d : Decider) (c : Carrier) (key : Option String)
  | create (r : OutboundRequest)
  | insertHeaders (r : OutboundRequest) (c : Carrier)

namespace ExchangeCall

variable {calls : List ExchangeCall} {call : ExchangeCall} {context : TraceContext}

/-- The context that is offered. Headers without one, or that cannot be read, offer none. -/
def offered? : ExchangeCall → Option TraceContext
  | accept _ c => some c
  | acceptHeaders _ c key =>
    match (TraceContext.extract c key).value with
    | .ok context? => context?
    | .error _ => none
  | create _ | insertHeaders _ _ => none

def isMalformed : ExchangeCall → Bool
  | acceptHeaders _ c key => !(TraceContext.extract c key).value.isOk
  | _ => false

def creates : ExchangeCall → Bool
  | create _ | insertHeaders _ _ => true
  | _ => false

/-- The context that comes first among those offered, if none was created before. -/
def firstOffered? (calls : List ExchangeCall) : Option TraceContext :=
  (calls.takeWhile (!·.creates)).findSome? offered?

@[simp] theorem firstOffered?_nil : firstOffered? [] = none := rfl

theorem firstOffered?_cons (call : ExchangeCall) (calls : List ExchangeCall) :
    firstOffered? (call::calls) = if call.creates then none else call.offered?.or (firstOffered? calls) := by
  by_cases h : call.creates = true
  · simp [firstOffered?,h]
  · cases hoffered : call.offered? <;> simp [firstOffered?,h,hoffered]

theorem firstOffered?_concat (calls : List ExchangeCall) (call : ExchangeCall) :
    firstOffered? (calls ++ [call]) =
      if calls.any (·.creates) then firstOffered? calls else (firstOffered? calls).or (firstOffered? [call]) := by
  induction calls with
  | nil => simp
  | cons first calls ih =>
    rw [List.cons_append,firstOffered?_cons,firstOffered?_cons,ih]
    by_cases h : first.creates = true
    · simp [h]
    · by_cases hany : calls.any (·.creates) = true
      · simp [h,hany]
      · simp [h,hany,Option.or_assoc]

theorem firstOffered?_concat_of_none (h : call.offered? = none) :
    firstOffered? (calls ++ [call]) = firstOffered? calls := by
  have hsingle : firstOffered? [call] = none := by rw [firstOffered?_cons,h]; simp
  simp [firstOffered?_concat,hsingle]

theorem of_offered (h : call.offered? = some context) : call.creates = false ∧ call.isMalformed = false := by
  cases call with
  | accept d c => exact ⟨rfl,rfl⟩
  | acceptHeaders d c key =>
    cases hread : (TraceContext.extract c key).value with
    | ok context? => simp [creates,isMalformed,hread,Except.isOk,Except.toBool]
    | error e => simp [offered?,hread] at h
  | create | insertHeaders => simp [offered?] at h

end ExchangeCall

namespace Exchange

open ExchangeCall

variable {x : Exchange} {call : ExchangeCall} {calls : List ExchangeCall} {context : TraceContext}

def apply (x : Exchange) : ExchangeCall → Exchange
  | .accept d c => (x.accept d c).value.2
  | .acceptHeaders d c key => (x.acceptHeaders d c key).value.2
  | .create r => (x.create r).2
  | .insertHeaders r c => (x.insertHeaders r c).value.2.1

def run (x : Exchange) (calls : List ExchangeCall) : Exchange := calls.foldl apply x

theorem run_append (x : Exchange) (calls more : List ExchangeCall) :
    x.run (calls ++ more) = (x.run calls).run more := List.foldl_append

theorem run_concat (x : Exchange) (calls : List ExchangeCall) (call : ExchangeCall) :
    x.run (calls ++ [call]) = (x.run calls).apply call := x.run_append calls [call]

/-- A call that offers no context may create one, or report headers that cannot be read. -/
theorem apply_of_none (h : call.offered? = none) :
    x.apply call = { x with
      created := x.created || call.creates
      counts := { x.counts with
        createSuccess := x.counts.createSuccess + call.creates.toNat
        acceptException := x.counts.acceptException + call.isMalformed.toNat } } := by
  cases call with
  | accept d c => simp [offered?] at h
  | acceptHeaders d c key =>
    cases hread : (TraceContext.extract c key).value with
    | ok context? =>
      have hnone : context? = none := by simpa [offered?,hread] using h
      simp [apply,acceptHeaders,hread,hnone,creates,isMalformed,Except.isOk,Except.toBool]
    | error e => simp [apply,acceptHeaders,hread,creates,isMalformed,Except.isOk,Except.toBool]
  | create | insertHeaders => simp [apply,Exchange.create,insertHeaders,creates,isMalformed]

theorem apply_of_offered (h : call.offered? = some context) : ∃ d, x.apply call = (x.accept d context).value.2 := by
  cases call with
  | accept d c =>
    obtain rfl : c = context := by simpa [offered?] using h
    exact ⟨d,rfl⟩
  | acceptHeaders d c key =>
    have hread : (TraceContext.extract c key).value = .ok (some context) := by
      simp only [offered?] at h
      split at h <;> simp_all
    exact ⟨d,by simp [apply,acceptHeaders_of_extract x d hread]⟩
  | create | insertHeaders => simp [offered?] at h

theorem apply_of_malformed (h : call.isMalformed = true) :
    x.apply call = { x with counts := { x.counts with acceptException := x.counts.acceptException + 1 } } := by
  have hnone : call.offered? = none := by
    cases hoffered : call.offered? with
    | none => rfl
    | some context => simp [(of_offered hoffered).2] at h
  have hcreates : call.creates = false := by cases call <;> first | rfl | simp [isMalformed] at h
  rw [apply_of_none hnone,h,hcreates]
  simp

theorem apply_of_accepted (h : call.offered? = some context) (haccepted : x.accepted.isSome = true) :
    x.apply call =
      { x with counts := { x.counts with ignoredMultipleAccept := x.counts.ignoredMultipleAccept + 1 } } := by
  obtain ⟨d,hd⟩ := apply_of_offered (x := x) h
  rw [hd,accept_of_accepted haccepted]

theorem apply_of_created (h : call.offered? = some context) (haccepted : x.accepted = none)
    (hcreated : x.created = true) :
    x.apply call =
      { x with counts := { x.counts with ignoredCreateBeforeAccept := x.counts.ignoredCreateBeforeAccept + 1 } } := by
  obtain ⟨d,hd⟩ := apply_of_offered (x := x) h
  rw [hd,accept_of_created haccepted hcreated]

theorem apply_of_open (h : call.offered? = some context) (hopen : x.isClosed = false) :
    x.apply call = { x with accepted := some context, counts := x.counts.taken context } := by
  obtain ⟨d,hd⟩ := apply_of_offered (x := x) h
  rw [hd,accept_eq_taken hopen]

/-- Nothing takes the place of a context that was accepted. -/
theorem accepted_apply (haccepted : x.accepted.isSome = true) : (x.apply call).accepted = x.accepted := by
  cases hoffered : call.offered? with
  | none => rw [apply_of_none hoffered]
  | some context => rw [apply_of_accepted hoffered haccepted]

theorem accepted_run (haccepted : x.accepted.isSome = true) (calls : List ExchangeCall) :
    (x.run calls).accepted = x.accepted := by
  induction calls using List.reverseRecOn with
  | nil => rfl
  | append_singleton calls call ih => rw [run_concat,accepted_apply (ih ▸ haccepted),ih]

/-- What an exchange tells of the calls that were made of it. -/
structure Tally (calls : List ExchangeCall) (x : Exchange) : Prop where
  accepted : x.accepted = firstOffered? calls
  success : x.counts.acceptSuccess = x.accepted.isSome.toNat
  offered : x.counts.acceptSuccess + x.counts.ignoredMultipleAccept + x.counts.ignoredCreateBeforeAccept =
    calls.countP (·.offered?.isSome)
  malformed : x.counts.acceptException = calls.countP (·.isMalformed)
  creates : x.counts.createSuccess = calls.countP (·.creates)
  created : x.created = true ↔ 0 < x.counts.createSuccess
  late : 0 < x.counts.ignoredCreateBeforeAccept → x.created = true ∧ x.accepted = none
  ownEntries : x.counts.noOwnEntry + x.counts.invalidOwnEntry ≤ x.counts.acceptSuccess

theorem tally_nil : Tally [] {} := by
  constructor <;> simp

theorem Tally.any_creates (h : Tally calls x) : calls.any (·.creates) = x.created := by
  rw [Bool.eq_iff_iff,h.created,h.creates,List.countP_pos_iff,List.any_eq_true]

theorem Tally.apply_of_none (h : Tally calls x) (hoffered : call.offered? = none) :
    Tally (calls ++ [call]) (x.apply call) := by
  have hcreated := h.created
  rw [Exchange.apply_of_none hoffered]
  exact
    { accepted := by rw [firstOffered?_concat_of_none hoffered,h.accepted]
      success := h.success
      offered := by simp [h.offered,hoffered]
      malformed := by cases hm : call.isMalformed <;> simp [h.malformed,hm]
      creates := by cases hc : call.creates <;> simp [h.creates,hc]
      created := by cases hc : call.creates <;> simp [hcreated]
      late := fun hlate => by simp [h.late hlate]
      ownEntries := h.ownEntries }

theorem Tally.apply_of_offered (h : Tally calls x) (hoffered : call.offered? = some context) :
    Tally (calls ++ [call]) (x.apply call) := by
  obtain ⟨hcreates,hmalformed⟩ := of_offered hoffered
  have hfirst : firstOffered? (calls ++ [call]) = if x.created then x.accepted else x.accepted.or (some context) := by
    have hsingle : firstOffered? [call] = some context := by rw [firstOffered?_cons,hcreates,hoffered]; simp
    rw [firstOffered?_concat,h.any_creates,← h.accepted,hsingle]
  have hcount := h.offered
  by_cases haccepted : x.accepted.isSome = true
  · rw [apply_of_accepted hoffered haccepted]
    exact
      { accepted := by rw [hfirst,Option.or_of_isSome haccepted,ite_self]
        success := h.success
        offered := by simp [hoffered]; omega
        malformed := by simp [h.malformed,hmalformed]
        creates := by simp [h.creates,hcreates]
        created := h.created
        late := h.late
        ownEntries := h.ownEntries }
  · have hnone : x.accepted = none := by simpa using haccepted
    by_cases hcreated : x.created = true
    · rw [apply_of_created hoffered hnone hcreated]
      exact
        { accepted := by rw [hfirst,if_pos hcreated]
          success := h.success
          offered := by simp [hoffered]; omega
          malformed := by simp [h.malformed,hmalformed]
          creates := by simp [h.creates,hcreates]
          created := h.created
          late := fun _ => ⟨hcreated,hnone⟩
          ownEntries := h.ownEntries }
    · have hopen : x.isClosed = false := by simp [isClosed,hnone,hcreated]
      have hsuccess : x.counts.acceptSuccess = 0 := by rw [h.success,hnone]; rfl
      have hown := h.ownEntries
      rw [apply_of_open hoffered hopen]
      exact
        { accepted := by rw [hfirst,if_neg hcreated,hnone]; rfl
          success := by simp [ExchangeCounts.taken,hsuccess]
          offered := by simp [ExchangeCounts.taken,hoffered]; omega
          malformed := by simp [ExchangeCounts.taken,h.malformed,hmalformed]
          creates := by simp [ExchangeCounts.taken,h.creates,hcreates]
          created := h.created
          late := fun hlate => absurd (h.late hlate).1 hcreated
          ownEntries := by
            cases hinvalid : context.ownInvalid <;> cases hentry : context.own <;>
              simp [ExchangeCounts.taken,hinvalid,hentry] <;> omega }

theorem tally_run (calls : List ExchangeCall) : Tally calls (run {} calls) := by
  induction calls using List.reverseRecOn with
  | nil => exact tally_nil
  | append_singleton calls call ih =>
    rw [run_concat]
    cases hoffered : call.offered? with
    | none => exact ih.apply_of_none hoffered
    | some context => exact ih.apply_of_offered hoffered

theorem Tally.count_le (h : Tally calls x) : ∀ m ∈ x.counts.metrics, m.2 ≤ calls.length := by
  have hoffered : calls.countP (·.offered?.isSome) ≤ calls.length := List.countP_le_length
  have hmalformed : calls.countP (·.isMalformed) ≤ calls.length := List.countP_le_length
  have hcreates : calls.countP (·.creates) ≤ calls.length := List.countP_le_length
  have hcount := h.offered
  have hown := h.ownEntries
  simp only [ExchangeCounts.metrics,List.mem_filter,List.mem_cons,List.not_mem_nil,or_false,and_imp]
  rintro m (rfl | rfl | rfl | rfl | rfl | rfl | rfl) - <;> simp only [h.malformed,h.creates] <;> omega

/-- What an exchange holds after some calls, and what a call that is refused then changes. -/
structure Balanced (calls : List ExchangeCall) (x : Exchange) : Prop where
  accepted : x.accepted = firstOffered? calls
  kept : ∀ more, x.accepted.isSome = true → (x.run more).accepted = x.accepted
  success : x.counts.acceptSuccess = if x.accepted.isSome then 1 else 0
  offered : x.counts.acceptSuccess + x.counts.ignoredMultipleAccept + x.counts.ignoredCreateBeforeAccept =
    calls.countP (·.offered?.isSome)
  malformed : x.counts.acceptException = calls.countP (·.isMalformed)
  creates : x.counts.createSuccess = calls.countP (·.creates)
  created : x.created = true ↔ 0 < x.counts.createSuccess
  exclusive : ¬(0 < x.counts.ignoredCreateBeforeAccept ∧ 0 < x.counts.acceptSuccess)
  ownEntries : x.counts.noOwnEntry + x.counts.invalidOwnEntry ≤ x.counts.acceptSuccess
  bounded : ∀ m ∈ x.counts.metrics, m.2 ≤ calls.length
  unreadable : ∀ call : ExchangeCall, call.isMalformed = true →
    x.apply call = { x with counts := { x.counts with acceptException := x.counts.acceptException + 1 } }
  repeated : ∀ call : ExchangeCall, call.offered?.isSome = true → x.accepted.isSome = true →
    x.apply call = { x with
      counts := { x.counts with ignoredMultipleAccept := x.counts.ignoredMultipleAccept + 1 } }
  late : ∀ call : ExchangeCall, call.offered?.isSome = true → x.accepted = none → x.created = true →
    x.apply call = { x with
      counts := { x.counts with ignoredCreateBeforeAccept := x.counts.ignoredCreateBeforeAccept + 1 } }

/-- Whatever calls are made: the first context offered is accepted, unless one was created before, and stays; each
offer is counted once, as accepted or for the one reason why it was refused, and so are headers that cannot be read and
contexts that are created; what is refused or cannot be read changes nothing but its count. -/
theorem counts_run (calls : List ExchangeCall) : Balanced calls (run {} calls) := by
  have h := tally_run calls
  refine
    { accepted := h.accepted
      kept := fun more haccepted => accepted_run haccepted more
      success := ?success
      offered := h.offered
      malformed := h.malformed
      creates := h.creates
      created := h.created
      exclusive := ?exclusive
      ownEntries := h.ownEntries
      bounded := h.count_le
      unreadable := fun call => apply_of_malformed
      repeated := fun call hoffered haccepted => ?repeated
      late := fun call hoffered haccepted hcreated => ?late }
  case success =>
    rw [h.success]
    cases (run {} calls).accepted.isSome <;> rfl
  case exclusive =>
    rintro ⟨hlate,hsuccess⟩
    rw [h.success,(h.late hlate).2] at hsuccess
    simp at hsuccess
  case repeated =>
    obtain ⟨context,hcontext⟩ := Option.isSome_iff_exists.1 hoffered
    exact apply_of_accepted hcontext haccepted
  case late =>
    obtain ⟨context,hcontext⟩ := Option.isSome_iff_exists.1 hoffered
    exact apply_of_created hcontext haccepted hcreated

end Exchange

end TraceEngine
