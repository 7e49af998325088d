import TraceEngine.Proofs.Identifier
import TraceEngine.Proofs.Propagation.Carrier
import TraceEngine.Proofs.Propagation.Members

/-!
Trace contexts that are written on a request and read from it again: nothing is lost but the members beyond the limit
and the places of the priority beyond those that the text has.
-/
namespace TraceEngine

open Text

theorem hexField?_append {width : ℕ} (digits rest : List Char) (hlen : digits.length = width)
    (h : ∀ c ∈ digits, isLowerHex c = true) : hexField? width (digits ++ rest) = some (digits,rest) := by
  subst hlen
  simp only [hexField?,List.take_left,List.drop_left]
  simpa using h

theorem Identifier.isLowerHex_of_mem_digits {bytes : ℕ} {id : Identifier bytes} {c : Char} (h : c ∈ id.digits) :
    isLowerHex c = true :=
  isLowerHex_of_mem_fixedHex h

theorem Identifier.ofNat_hexOf_digits {bytes : ℕ} (id : Identifier bytes) : ofNat (hexOf id.digits) = id := by
  have hlt : id.toNat < 16 ^ (2 * bytes) := sixteen_pow bytes ▸ id.toNat_lt
  have hnumber : hexOf id.digits = id.toNat := by
    simp [hexOf,digits,hexNumber?_fixedHex,Nat.mod_eq_of_lt hlt]
  rw [hnumber,ofNat_toNat]

def flagDigits (sampled : Bool) : List Char := ['0',if sampled then '1' else '0']

theorem TraceParent.toList_text (traceId : TraceId) (parentId : SpanId) (sampled : Bool) :
    (TraceParent.text traceId parentId sampled).toList =
      ['0','0'] ++ '-' :: (traceId.digits ++ '-' :: (parentId.digits ++ '-' :: (flagDigits sampled ++ []))) := by
  cases sampled <;> simp [TraceParent.text,Identifier.text,flagDigits,toString]

theorem ParentFields.read?_text (traceId : TraceId) (parentId : SpanId) (sampled : Bool) :
    ParentFields.read? (TraceParent.text traceId parentId sampled).toList =
      some ⟨['0','0'],traceId.digits,parentId.digits,flagDigits sampled,[]⟩ := by
  have hversion (rest : List Char) : hexField? 2 (['0','0'] ++ rest) = some (['0','0'],rest) :=
    hexField?_append _ rest rfl (by simp [isLowerHex])
  have htrace (rest : List Char) : hexField? 32 (traceId.digits ++ rest) = some (traceId.digits,rest) :=
    hexField?_append _ rest traceId.length_digits fun _ => Identifier.isLowerHex_of_mem_digits
  have hparent (rest : List Char) : hexField? 16 (parentId.digits ++ rest) = some (parentId.digits,rest) :=
    hexField?_append _ rest parentId.length_digits fun _ => Identifier.isLowerHex_of_mem_digits
  have hflags (rest : List Char) : hexField? 2 (flagDigits sampled ++ rest) = some (flagDigits sampled,rest) :=
    hexField?_append _ rest rfl (by cases sampled <;> simp [flagDigits,isLowerHex])
  rw [TraceParent.toList_text]
  simp only [ParentFields.read?,hversion,Option.bind_eq_bind,Option.bind_some,dash?,htrace,hparent,hflags]
  rfl

theorem TraceParent.trim_text (traceId : TraceId) (parentId : SpanId) (sampled : Bool) :
    trim (TraceParent.text traceId parentId sampled).toList = (TraceParent.text traceId parentId sampled).toList := by
  have hlast : NoBlank (flagDigits sampled) := by cases sampled <;> decide
  rw [TraceParent.toList_text]
  have h := trim_between (a := ['0','0']) (b := flagDigits sampled) (by decide) (by simp [flagDigits]) (by decide) hlast
    ('-' :: (traceId.digits ++ '-' :: parentId.digits ++ ['-']))
  simpa using h

theorem TraceParent.read_text {traceId : TraceId} {parentId : SpanId} (htrace : traceId.isValid = true)
    (hparent : parentId.isValid = true) (sampled : Bool) :
    (TraceParent.read (trim (TraceParent.text traceId parentId sampled).toList)).value =
      .ok ⟨0,traceId,parentId,sampled.toNat⟩ := by
  have hflags : hexOf (flagDigits sampled) = sampled.toNat := by cases sampled <;> decide
  have hversion : hexOf ['0','0'] = 0 := by decide
  rw [TraceParent.trim_text]
  simp [TraceParent.read,ParentFields.read?_text,Identifier.ofNat_hexOf_digits,htrace,hparent,hflags,hversion]

theorem apart_parent_state : Carrier.Apart parentHeader stateHeader := ⟨by decide,by decide⟩

theorem apart_state_parent : Carrier.Apart stateHeader parentHeader := ⟨by decide,by decide⟩

/-- What the state headers say. -/
def Carrier.state (c : Carrier) (key : Option String) : TraceState :=
  ((c.joined? stateHeader).map fun header => (TraceState.read key header).value).getD {}

theorem TraceContext.extract_of_parent {c : Carrier} {header : String} {parent : TraceParent}
    (hvalues : c.values parentHeader = [header]) (hread : (TraceParent.read (trim header.toList)).value = .ok parent)
    (key : Option String) :
    (extract c key).value =
      .ok (some ⟨parent,(c.state key).own,(c.state key).ownInvalid,(c.state key).others⟩) := by
  simp only [extract,Carrier.single,hvalues,Logged.value_bind,hread,Carrier.state]
  cases hjoined : c.joined? stateHeader with
  | none => cases key <;> rfl
  | some s =>
    simp only [Logged.value_bind]
    split <;> rfl

theorem TraceContext.others_extract {c : Carrier} {key : Option String} {context : TraceContext}
    (h : (extract c key).value = .ok (some context)) :
    context.others = ((c.joined? stateHeader).map fun s => (TraceState.read key s).value.others).getD [] := by
  unfold extract at h
  split at h
  · simp at h
  · simp at h
  · rw [Logged.value_bind] at h
    split at h
    · simp at h
    · -- Whether a missing own entry is reported makes no difference to the value.
      cases hjoined : c.joined? stateHeader with
      | none =>
        simp only [hjoined,Logged.value_bind] at h
        split at h <;> cases h <;> rfl
      | some s =>
        simp only [hjoined,Logged.value_bind] at h
        split at h <;> cases h <;> rfl

theorem TraceContext.printable_extract {c : Carrier} {key : Option String} {context : TraceContext}
    (h : (extract c key).value = .ok (some context)) :
    ∀ m ∈ context.others, ∀ ch ∈ m.toList, TraceState.isPrintable ch = true := by
  intro m hm
  rw [others_extract h] at hm
  cases hjoined : c.joined? stateHeader with
  | none => simp [hjoined] at hm
  | some s => exact TraceState.printable_read (by simpa [hjoined] using hm)

namespace OutboundContext

/-- What a reader can take apart again: identifiers that are not zero, an own entry that is found and read, and members
of others that stay whole and are not taken for the own entry. -/
@[mk_iff]
structure Readable (o : OutboundContext) : Prop where
  traceId : o.traceId.isValid = true
  parentId : o.parentId.isValid = true
  entry : ∀ e ∈ o.entry, TraceState.IsEntry e
  others : ∀ m ∈ o.others, TraceState.Foreign (o.entry.map (·.1)) m

instance (o : OutboundContext) : Decidable o.Readable := decidable_of_iff' _ (readable_iff o)

variable {o : OutboundContext} {c : Carrier}

theorem headers_inject (htrace : o.traceId.isValid = true) (hparent : o.parentId.isValid = true) (hc : c.fields = []) :
    (o.inject c).value.values parentHeader = [TraceParent.text o.traceId o.parentId o.sampled] ∧
      (o.inject c).value.joined? stateHeader =
        if (TraceState.text o.entry o.others).isEmpty then none else some (TraceState.text o.entry o.others) := by
  have hvalues (name : String) : c.values name = [] := by cases c <;> simp_all [Carrier.values,Carrier.fields]
  by_cases hempty : (TraceState.text o.entry o.others).isEmpty = true
  · simp [inject,htrace,hparent,hempty,Carrier.joined?,Carrier.getAll?,
      Carrier.values_set_of_apart _ apart_parent_state,hvalues]
  · simp [inject,htrace,hparent,hempty,Carrier.joined?,Carrier.getAll?,
      Carrier.values_set_of_apart _ apart_state_parent]

theorem extract_of_text (htrace : o.traceId.isValid = true) (hparent : o.parentId.isValid = true) (hc : c.fields = [])
    {key : Option String} {state : TraceState}
    (hread : (TraceState.read key (TraceState.text o.entry o.others)).value = state) :
    (TraceContext.extract (o.inject c).value key).value =
      .ok (some ⟨⟨0,o.traceId,o.parentId,o.sampled.toNat⟩,state.own,state.ownInvalid,state.others⟩) := by
  obtain ⟨hvalues,hjoined⟩ := headers_inject htrace hparent hc
  have hstate : (o.inject c).value.state key = state := by
    rw [Carrier.state,hjoined]
    split
    · rename_i hempty
      rw [← hread,String.isEmpty_iff.1 hempty,TraceState.read_empty]
      rfl
    · exact hread
  rw [TraceContext.extract_of_parent hvalues (TraceParent.read_text htrace hparent o.sampled),hstate]

/-- A context that is written on a request without headers is read from it again: the identifiers, the flag, the own
entry with its priority to the places that the text has, and as many members of others as there is room for. -/
theorem extract_inject (o : OutboundContext) (c : Carrier) (h : o.Readable) (hc : c.fields = []) :
    (TraceContext.extract (o.inject c).value (o.entry.map (·.1))).value =
      .ok (some {
        parent := ⟨0,o.traceId,o.parentId,o.sampled.toNat⟩
        own := o.entry.map (·.2.rounded)
        ownInvalid := false
        others := o.others.take (maxMembers - o.entry.toList.length) }) :=
  extract_of_text h.traceId h.parentId hc (TraceState.read_text h.entry h.others)

/-- An own entry and the members of two others. -/
def withTwoOthers : OutboundContext where
  traceId := .ofNat 0xa1
  parentId := .ofNat 0xb2
  sampled := true
  entry := some ("33@nr",
    { accountId := "33", appId := "app 5", id := some "b2", sampled := some true,
      priority := some (.ofDecimal 1123456 6), timestamp := 1500 })
  others := ["congo=t61","rojo=00-f0"]

theorem extract_inject_withTwoOthers :
    withTwoOthers.Readable ∧ (Carrier.list []).fields = [] ∧
      (TraceContext.extract (withTwoOthers.inject (.list [])).value (some "33@nr")).value =
        .ok (some ⟨⟨0,.ofNat 0xa1,.ofNat 0xb2,1⟩,withTwoOthers.entry.map (·.2),false,
          ["congo=t61","rojo=00-f0"]⟩) := by
  have hreadable : withTwoOthers.Readable := by decide +kernel
  refine ⟨hreadable,rfl,?_⟩
  have hentry : withTwoOthers.entry.map (·.2.rounded) = withTwoOthers.entry.map (·.2) := by decide +kernel
  have h := extract_inject withTwoOthers (.list []) hreadable rfl
  rw [hentry] at h
  exact h

/-- An own entry under a name that is not all ASCII. -/
def withAccent : OutboundContext :=
  { withTwoOthers with entry := some ("é@nr",{ accountId := "33", appId := "5" }), others := [] }

/-- The name has neither a blank nor a comma nor an equals sign in it, yet the reader drops the whole state header. -/
theorem ownEntry_dropped :
    (∀ e ∈ withAccent.entry, NoBlank e.1.toList ∧ ',' ∉ e.1.toList ∧ '=' ∉ e.1.toList ∧ e.2.Writable ∧ e.2.Printed) ∧
      (TraceContext.extract (withAccent.inject (.list [])).value (some "é@nr")).value =
        .ok (some ⟨⟨0,.ofNat 0xa1,.ofNat 0xb2,1⟩,none,false,[]⟩) := by
  constructor
  · decide +kernel
  · have hread : (TraceState.read (some "é@nr") (TraceState.text withAccent.entry withAccent.others)).value = {} := by
      decide +kernel
    exact extract_of_text (by decide) (by decide) rfl hread

end OutboundContext

end TraceEngine
