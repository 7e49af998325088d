import TraceEngine.Proofs.Propagation.Forwarding

/-!
Contexts written on requests that had one. A reader sees two headers only, and the parent header is always replaced; the
state header is replaced by contexts that have something to say in it, and stays as it was under all others.
-/
namespace TraceEngine

open Text

namespace Carrier

def emptied : Carrier → Carrier
  | list _ => list []
  | map _ => map []

@[simp] theorem values_emptied (c : Carrier) (name : String) : c.emptied.values name = [] := by cases c <;> rfl

theorem state_congr {c d : Carrier} (h : c.values stateHeader = d.values stateHeader) (key : Option String) :
    c.state key = d.state key := by
  simp only [state,joined?,getAll?,h]

@[simp] theorem state_emptied (c : Carrier) (key : Option String) : c.emptied.state key = {} := by
  simp [state,joined?,getAll?]

end Carrier

/-- Two requests with the same two headers are read alike, down to the log. -/
theorem TraceContext.extract_congr {c d : Carrier} (hparent : c.values parentHeader = d.values parentHeader)
    (hstate : c.values stateHeader = d.values stateHeader) (key : Option String) : extract c key = extract d key := by
  simp only [extract,Carrier.single,Carrier.joined?,Carrier.getAll?,hparent,hstate]

theorem intercalate_eq_empty_iff {ms : List String} : ",".intercalate ms = "" ↔ ms = [] ∨ ms = [""] := by
  rw [← String.toList_eq_nil_iff,String.toList_intercalate]
  match ms with
  | [] => simp
  | [m] => simp
  | m :: next :: ms => simp [List.intercalate_cons_cons]

theorem TraceState.text_eq_empty_iff {entry : Option (String × StatePayload)} {others : List String} :
    text entry others = "" ↔ entry = none ∧ (others = [] ∨ others = [""]) := by
  rw [text_eq,intercalate_eq_empty_iff]
  cases entry with
  | none =>
    have hone : others.take 32 = [""] ↔ others = [""] := by
      match others with
      | [] => simp
      | [m] => simp
      | m :: next :: others => simp
    simp [written,maxMembers,hone]
  | some e =>
    have hentry : entryText e ≠ "" := fun h => by
      have hlist := toList_entryText e
      rw [h] at hlist
      simp at hlist
    simp [written,hentry]

namespace OutboundContext

/-- A context that has nothing to say in a state header. -/
def Silent (o : OutboundContext) : Prop := o.entry = none ∧ (o.others = [] ∨ o.others = [""])

instance (o : OutboundContext) : Decidable o.Silent := inferInstanceAs (Decidable (_ ∧ (_ ∨ _)))

/-- What is read behind the parent header of this context, by what the state headers say. -/
def received (o : OutboundContext) (state : TraceState) : TraceContext :=
  ⟨⟨0,o.traceId,o.parentId,o.sampled.toNat⟩,state.own,state.ownInvalid,state.others⟩

variable {o : OutboundContext}

theorem received_inj {a b : TraceState} : o.received a = o.received b ↔ a = b := by
  cases a
  cases b
  simp [received]

section Valid

variable (htrace : o.traceId.isValid = true) (hparent : o.parentId.isValid = true)
include htrace hparent

theorem values_inject_parent (c : Carrier) :
    (o.inject c).value.values parentHeader = [TraceParent.text o.traceId o.parentId o.sampled] := by
  by_cases hempty : (TraceState.text o.entry o.others).isEmpty = true
  · simp [inject,htrace,hparent,hempty]
  · simp [inject,htrace,hparent,hempty,Carrier.values_set_of_apart _ apart_state_parent]

theorem values_inject_of_silent (h : o.Silent) (c : Carrier) :
    (o.inject c).value.values stateHeader = c.values stateHeader := by
  have hempty : TraceState.text o.entry o.others = "" := TraceState.text_eq_empty_iff.2 h
  simp [inject,htrace,hparent,hempty,Carrier.values_set_of_apart _ apart_parent_state]

theorem extract_eq_received (c : Carrier) (key : Option String) :
    (TraceContext.extract (o.inject c).value key).value = .ok (some (o.received ((o.inject c).value.state key))) :=
  TraceContext.extract_of_parent (values_inject_parent htrace hparent c)
    (TraceParent.read_text htrace hparent o.sampled) key

theorem state_inject_of_silent (h : o.Silent) (c : Carrier) (key : Option String) :
    (o.inject c).value.state key = c.state key :=
  Carrier.state_congr (values_inject_of_silent htrace hparent h c) key

theorem extract_inject_eq (h : ¬o.Silent) (c d : Carrier) (key : Option String) :
    TraceContext.extract (o.inject c).value key = TraceContext.extract (o.inject d).value key := by
  have htext : TraceState.text o.entry o.others ≠ "" := fun hempty => h (TraceState.text_eq_empty_iff.1 hempty)
  apply TraceContext.extract_congr
  · rw [values_inject_parent htrace hparent,values_inject_parent htrace hparent]
  · rw [values_inject htrace hparent htext,values_inject htrace hparent htext]

end Valid

/-- What is left of the headers of a request when a context with valid identifiers is written on it, whatever they were
and however often they stood there. The one parent header is the new one. With an own entry or members of others the
one state header is the new one too, and a reader finds what it finds, and logs what it logs, as if the request had had
no headers. Without them the state headers of others stay, and a reader takes what they say for the new context. So the
context is read as from a request without headers if and only if there is something to write in the state header, or
nothing that the reader heeds in those from before. -/
theorem inject_overwrites (o : OutboundContext) (htrace : o.traceId.isValid = true)
    (hparent : o.parentId.isValid = true) (c : Carrier) :
    (o.inject c).value.values parentHeader = [TraceParent.text o.traceId o.parentId o.sampled] ∧
      (¬o.Silent →
        (o.inject c).value.values stateHeader = [TraceState.text o.entry o.others] ∧
          ∀ key, TraceContext.extract (o.inject c).value key = TraceContext.extract (o.inject c.emptied).value key) ∧
      (o.Silent →
        (o.inject c).value.values stateHeader = c.values stateHeader ∧
          ∀ key, (TraceContext.extract (o.inject c).value key).value = .ok (some (o.received (c.state key)))) ∧
      ∀ key,
        (TraceContext.extract (o.inject c).value key).value =
            (TraceContext.extract (o.inject c.emptied).value key).value ↔
          (o.Silent → c.state key = {}) := by
  refine ⟨values_inject_parent htrace hparent c,fun h => ⟨?_,extract_inject_eq htrace hparent h c c.emptied⟩,
    fun h => ⟨values_inject_of_silent htrace hparent h c,fun key => ?_⟩,fun key => ?_⟩
  · exact values_inject htrace hparent (fun hempty => h (TraceState.text_eq_empty_iff.1 hempty)) c
  · rw [extract_eq_received htrace hparent,state_inject_of_silent htrace hparent h]
  · by_cases h : o.Silent
    · rw [extract_eq_received htrace hparent,extract_eq_received htrace hparent,
        state_inject_of_silent htrace hparent h,state_inject_of_silent htrace hparent h,Carrier.state_emptied,
        Except.ok.injEq,Option.some.injEq,received_inj]
      simp [h]
    · simp [h,extract_inject_eq htrace hparent h c c.emptied key]

/-- Headers of an earlier request that are forwarded, the names in several spellings. -/
def forwarded : Carrier :=
  .list [("TraceParent","00-000000000000000000000000000000d4-00000000000000e5-01"),("TraceState","old=1"),
    ("accept","text/html"),("traceparent","no header"),("tracestate","33@nr=0-0-33-5-e5-d4-1-2.5-900")]

theorem inject_overwrites_forwarded :
    withTwoOthers.traceId.isValid = true ∧ withTwoOthers.parentId.isValid = true ∧ ¬withTwoOthers.Silent ∧
      (withTwoOthers.inject forwarded).value.values stateHeader =
        [TraceState.text withTwoOthers.entry withTwoOthers.others] ∧
      TraceContext.extract (withTwoOthers.inject forwarded).value (some "33@nr") =
        TraceContext.extract (withTwoOthers.inject (.list [])).value (some "33@nr") := by
  have htrace : withTwoOthers.traceId.isValid = true := by decide
  have hparent : withTwoOthers.parentId.isValid = true := by decide
  have hspoken : ¬withTwoOthers.Silent := by decide
  obtain ⟨-,h,-⟩ := inject_overwrites withTwoOthers htrace hparent forwarded
  exact ⟨htrace,hparent,hspoken,(h hspoken).1,(h hspoken).2 (some "33@nr")⟩

def bare : OutboundContext := { withTwoOthers with entry := none, others := [] }

/-- Nothing is written in the state header, and a reader takes the own entry and the members of an earlier trace for
those of the new one. -/
theorem state_left_behind :
    bare.traceId.isValid = true ∧ bare.parentId.isValid = true ∧
      (TraceContext.extract (bare.inject forwarded).value (some "33@nr")).value =
        .ok (some ⟨⟨0,.ofNat 0xa1,.ofNat 0xb2,1⟩,
          some { accountId := "33", appId := "5", id := some "e5", transactionId := some "d4", sampled := some true,
                 priority := some (.ofDecimal 25 1), timestamp := 900 },false,["old=1"]⟩) ∧
      (TraceContext.extract (bare.inject (.list [])).value (some "33@nr")).value =
        .ok (some ⟨⟨0,.ofNat 0xa1,.ofNat 0xb2,1⟩,none,false,[]⟩) := by
  refine ⟨by decide,by decide,by decide +kernel,by decide +kernel⟩

end OutboundContext

end TraceEngine
