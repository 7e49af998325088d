import TraceEngine.Proofs.Identifier
import TraceEngine.Proofs.Propagation.Context

/-!
The parent header as a grammar: which texts are accepted, and what they denote. Each field can be read on its own, and
no field that has the shape of the header is left unread.
-/
namespace TraceEngine

open Text

/-- As many digits in lower case as the field is wide. -/
structure IsField (width : ℕ) (digits : List Char) : Prop where
  length : digits.length = width
  digits : ∀ c ∈ digits, c ∈ hexAlphabet

namespace IsField

variable {width : ℕ} {digits : List Char}

theorem hexDigits (h : IsField width digits) : HexDigits digits := fun c hc => isHexDigit_of_mem (h.digits c hc)

theorem hexOf_eq (h : IsField width digits) : hexOf digits = hexDenoted digits := by
  rw [hexOf,hexNumber?_eq,if_pos h.hexDigits]
  rfl

theorem fixedHex_hexDenoted (h : IsField width digits) : fixedHex width (hexDenoted digits) = digits := by
  have hlower : digits.map Char.toLower = digits := by
    have hall : hexAlphabet.all (fun c => c.toLower = c) = true := by decide
    conv_rhs => rw [← List.map_id digits]
    exact List.map_congr_left fun c hc => by simpa using List.all_eq_true.1 hall c (h.digits c hc)
  rw [Text.fixedHex_hexDenoted h.hexDigits h.length.le,hlower,List.leftpad,h.length]
  simp

theorem hexDenoted_eq_iff (h : IsField width digits) {n : ℕ} (hn : n < 16 ^ width) :
    hexDenoted digits = n ↔ digits = fixedHex width n := by
  constructor
  · rintro rfl
    exact h.fixedHex_hexDenoted.symm
  · rintro rfl
    rw [hexDenoted_fixedHex,Nat.mod_eq_of_lt hn]

theorem hexDenoted_ne_zero_iff (h : IsField width digits) : hexDenoted digits ≠ 0 ↔ ∃ c ∈ digits, c ≠ '0' := by
  rw [ne_eq,h.hexDenoted_eq_iff (by positivity),fixedHex_zero,List.eq_replicate_iff]
  simp [h.length]

variable {bytes : ℕ}

theorem toNat_ofNat (h : IsField (2 * bytes) digits) :
    (Identifier.ofNat (hexDenoted digits) : Identifier bytes).toNat = hexDenoted digits := by
  refine Identifier.toNat_ofNat ?_
  rw [← Identifier.sixteen_pow,← h.length]
  exact hexDenoted_lt h.hexDigits

theorem isValid_ofNat (h : IsField (2 * bytes) digits) :
    (Identifier.ofNat (hexDenoted digits) : Identifier bytes).isValid = true ↔ ∃ c ∈ digits, c ≠ '0' := by
  rw [Identifier.isValid,decide_eq_true_eq,h.toNat_ofNat,h.hexDenoted_ne_zero_iff]

end IsField

theorem IsField.hexField?_append {width : ℕ} {digits : List Char} (h : IsField width digits) (rest : List Char) :
    hexField? width (digits ++ rest) = some (digits,rest) :=
  TraceEngine.hexField?_append digits rest h.length fun c hc => isLowerHex_iff.2 (h.digits c hc)

theorem hexField?_eq_some_iff {width : ℕ} {s digits rest : List Char} :
    hexField? width s = some (digits,rest) ↔ s = digits ++ rest ∧ IsField width digits := by
  constructor
  · intro h
    rw [hexField?] at h
    split at h
    · rename_i hc
      obtain ⟨rfl,rfl⟩ : s.take width = digits ∧ s.drop width = rest := by simpa using h
      simp only [Bool.and_eq_true,decide_eq_true_eq,List.all_eq_true,isLowerHex_iff] at hc
      exact ⟨(List.take_append_drop width s).symm,hc.1,hc.2⟩
    · contradiction
  · rintro ⟨rfl,h⟩
    exact h.hexField?_append rest

theorem dash?_eq_some_iff {s rest : List Char} : dash? s = some rest ↔ s = '-' :: rest := by
  unfold dash?
  split
  · simp
  · rename_i hdash
    simp only [reduceCtorEq,false_iff]
    exact hdash rest

namespace ParentFields

variable {f : ParentFields} {s : List Char}

def text (f : ParentFields) : List Char :=
  f.version ++ '-' :: (f.traceId ++ '-' :: (f.parentId ++ '-' :: (f.flags ++ f.tail)))

/-- Fields of the widths of a header, and a tail behind a dash that stays on its line. -/
structure Shaped (f : ParentFields) : Prop where
  version : IsField 2 f.version
  traceId : IsField 32 f.traceId
  parentId : IsField 16 f.parentId
  flags : IsField 2 f.flags
  tail : f.tail = [] ∨ ∃ rest, f.tail = '-' :: rest ∧ '\n' ∉ rest

theorem isTail_iff (tail : List Char) :
    (tail.isEmpty || (tail.head? = some '-' && !tail.contains '\n')) = true ↔
      tail = [] ∨ ∃ rest, tail = '-' :: rest ∧ '\n' ∉ rest := by
  cases tail with
  | nil => simp
  | cons c rest =>
    have hdash : c = '-' → '\n' ≠ c := by
      rintro rfl
      decide
    simp
    tauto

/-- A text is taken apart into fields in one way at most, and if and only if it has the shape of a header. -/
theorem read?_eq_some_iff : read? s = some f ↔ s = f.text ∧ f.Shaped := by
  constructor
  · intro h
    simp only [read?,Option.bind_eq_bind,Option.bind_eq_some_iff] at h
    obtain ⟨⟨version,_⟩,hversion,_,hdash₁,⟨traceId,_⟩,htrace,_,hdash₂,⟨parentId,_⟩,hparent,_,hdash₃,
      ⟨flags,tail⟩,hflags,h⟩ := h
    simp only [hexField?_eq_some_iff,dash?_eq_some_iff] at hversion hdash₁ htrace hdash₂ hparent hdash₃ hflags
    split at h
    · rename_i htail
      obtain rfl := Option.some.inj h
      refine ⟨?_,hversion.2,htrace.2,hparent.2,hflags.2,(isTail_iff _).1 htail⟩
      rw [hversion.1,hdash₁,htrace.1,hdash₂,hparent.1,hdash₃,hflags.1,text]
    · contradiction
  · rintro ⟨rfl,h⟩
    simp only [read?,text,Option.bind_eq_bind,Option.bind_some,h.version.hexField?_append,
      h.traceId.hexField?_append,h.parentId.hexField?_append,h.flags.hexField?_append,dash?,
      if_pos ((isTail_iff _).2 h.tail)]

/-- A shape that is not refused: a known version or one of the future, neither identifier zero, and nothing behind the
flags in version zero. -/
structure Accepted (f : ParentFields) : Prop extends Shaped f where
  version_ne : f.version ≠ ['f','f']
  traceId_ne : ∃ c ∈ f.traceId, c ≠ '0'
  parentId_ne : ∃ c ∈ f.parentId, c ≠ '0'
  tail_eq : f.version = ['0','0'] → f.tail = []

/-- The fields are those of the header in hexadecimal digits. -/
structure Denotes (f : ParentFields) (parent : TraceParent) : Prop where
  version : parent.version = hexDenoted f.version
  traceId : parent.traceId.toNat = hexDenoted f.traceId
  parentId : parent.parentId.toNat = hexDenoted f.parentId
  flags : parent.flags = hexDenoted f.flags

def parent (f : ParentFields) : TraceParent :=
  ⟨hexOf f.version,.ofNat (hexOf f.traceId),.ofNat (hexOf f.parentId),hexOf f.flags⟩

namespace Shaped

theorem denotes_iff (h : f.Shaped) {parent : TraceParent} : f.Denotes parent ↔ parent = f.parent := by
  have htrace : (Identifier.ofNat (hexDenoted f.traceId) : TraceId).toNat = hexDenoted f.traceId :=
    IsField.toNat_ofNat h.traceId
  have hparent : (Identifier.ofNat (hexDenoted f.parentId) : SpanId).toNat = hexDenoted f.parentId :=
    IsField.toNat_ofNat h.parentId
  rw [ParentFields.parent,h.version.hexOf_eq,h.traceId.hexOf_eq,h.parentId.hexOf_eq,h.flags.hexOf_eq]
  constructor
  · rintro ⟨hversion,htraceId,hparentId,hflags⟩
    obtain ⟨version,traceId,parentId,flags⟩ := parent
    simp only at hversion htraceId hparentId hflags
    rw [hversion,hflags,← htraceId,← hparentId,Identifier.ofNat_toNat,Identifier.ofNat_toNat]
  · rintro rfl
    exact ⟨rfl,htrace,hparent,rfl⟩

theorem traceId_isValid (h : f.Shaped) : f.parent.traceId.isValid = true ↔ ∃ c ∈ f.traceId, c ≠ '0' := by
  rw [parent,h.traceId.hexOf_eq]
  exact IsField.isValid_ofNat h.traceId

theorem parentId_isValid (h : f.Shaped) : f.parent.parentId.isValid = true ↔ ∃ c ∈ f.parentId, c ≠ '0' := by
  rw [parent,h.parentId.hexOf_eq]
  exact IsField.isValid_ofNat h.parentId

theorem version_eq_iff (h : f.Shaped) {n : ℕ} (hn : n < 16 ^ 2) :
    f.parent.version = n ↔ f.version = fixedHex 2 n := by
  rw [parent,h.version.hexOf_eq]
  exact h.version.hexDenoted_eq_iff hn

end Shaped

end ParentFields

namespace TraceParent

variable {s : List Char} {f : ParentFields} {parent : TraceParent}

theorem read_of_shaped (h : f.Shaped) :
    (TraceParent.read f.text).value =
      if ¬f.parent.traceId.isValid then .error .zeroTraceId
      else if ¬f.parent.parentId.isValid then .error .zeroSpanId
      else if f.version = ['f','f'] then .error .reservedVersion
      else if f.version = ['0','0'] then if f.tail = [] then .ok f.parent else .error .tailInVersionZero
      else .ok f.parent := by
  have hreserved : f.version = ['f','f'] ↔ f.parent.version = 255 := (h.version_eq_iff (n := 255) (by decide)).symm
  have hzero : f.version = ['0','0'] ↔ f.parent.version = 0 := (h.version_eq_iff (n := 0) (by decide)).symm
  rw [TraceParent.read,ParentFields.read?_eq_some_iff.2 ⟨rfl,h⟩]
  simp only [hreserved,hzero,List.isEmpty_iff,ParentFields.parent]
  split_ifs <;> simp_all

theorem read_of_none (h : ParentFields.read? s = none) : (TraceParent.read s).value = .error .malformedParent := by
  rw [TraceParent.read,h]
  rfl

theorem read_eq_ok_iff :
    (TraceParent.read s).value = .ok parent ↔ ∃ f : ParentFields, s = f.text ∧ f.Accepted ∧ f.Denotes parent := by
  constructor
  · intro h
    cases hfields : ParentFields.read? s with
    | none =>
      rw [read_of_none hfields] at h
      contradiction
    | some f =>
      obtain ⟨rfl,hshape⟩ := ParentFields.read?_eq_some_iff.1 hfields
      rw [read_of_shaped hshape] at h
      split_ifs at h with htrace hparent hreserved hzero htail
      · obtain rfl := Except.ok.inj h
        exact ⟨f,rfl,⟨hshape,hreserved,hshape.traceId_isValid.1 htrace,
          hshape.parentId_isValid.1 hparent,fun _ => htail⟩,hshape.denotes_iff.2 rfl⟩
      · obtain rfl := Except.ok.inj h
        exact ⟨f,rfl,⟨hshape,hreserved,hshape.traceId_isValid.1 htrace,
          hshape.parentId_isValid.1 hparent,fun h => absurd h hzero⟩,hshape.denotes_iff.2 rfl⟩
  · rintro ⟨f,rfl,h,hdenotes⟩
    obtain rfl := h.denotes_iff.1 hdenotes
    rw [read_of_shaped h.toShaped,if_neg (not_not.2 (h.traceId_isValid.2 h.traceId_ne)),
      if_neg (not_not.2 (h.parentId_isValid.2 h.parentId_ne)),if_neg h.version_ne]
    split
    · rename_i hzero
      rw [if_pos (h.tail_eq hzero)]
    · rfl

/-- Why a field is not taken: the header is refused, digits cannot be read, or there are not two digits of flags. -/
inductive FieldFault
  | refused (fault : ContextFault)
  | undecodable (field : String)
  | flagsLength

def FieldFault.text : FieldFault → String
  | .refused fault => fault.text
  | .undecodable field => s!"Failed to decode {field}"
  | .flagsLength => "Invalid trace flags length"

/-- A number below 256 in hexadecimal digits; a plus sign may stand in front. -/
def readByte? (s : List Char) : Option ℕ :=
  let digits := match s with
    | '+' :: rest => rest
    | _ => s
  if digits.isEmpty then none else (hexNumber? digits).filter (· < 256)

def readId (bytes : ℕ) (field : String) (zero : ContextFault) (digits : List Char) :
    Except FieldFault (Identifier bytes) :=
  if !digits.isEmpty && digits.all (· = '0') then .error (.refused zero)
  else
    match Identifier.read (String.ofList digits) with
    | .ok id => .ok id
    | .error _ => .error (.undecodable field)

def readFlags (digits : List Char) : Except FieldFault ℕ :=
  if (String.ofList digits).utf8ByteSize ≠ 2 then .error .flagsLength
  else
    match readByte? digits with
    | some flags => .ok flags
    | none => .error (.undecodable "trace_flags")

def readVersion (digits tail : List Char) : Except FieldFault ℕ :=
  if digits = ['f','f'] then .error (.refused .reservedVersion)
  else if digits = ['0','0'] then if tail.isEmpty then .ok 0 else .error (.refused .tailInVersionZero)
  else
    match readByte? digits with
    | some version => .ok version
    | none => .error (.undecodable "version")

/-- The reader that takes the fields one after another, each with the checks of its own. -/
def readInParts (s : List Char) : Except FieldFault TraceParent :=
  match ParentFields.read? s with
  | none => .error (.refused .malformedParent)
  | some f => do
    let traceId ← readId 16 "trace_id" .zeroTraceId f.traceId
    let parentId ← readId 8 "span_id" .zeroSpanId f.parentId
    let flags ← readFlags f.flags
    let version ← readVersion f.version f.tail
    return ⟨version,traceId,parentId,flags⟩

theorem readByte?_of_isField {digits : List Char} (h : IsField 2 digits) : readByte? digits = some (hexOf digits) := by
  have hplus : '+' ∉ digits := fun hc => absurd (h.digits '+' hc) (by decide)
  have hne : digits ≠ [] := by
    rintro rfl
    simpa using h.length
  have hlt : hexDenoted digits < 256 := by simpa [h.length] using hexDenoted_lt h.hexDigits
  have hnumber : hexNumber? digits = some (hexDenoted digits) := by rw [hexNumber?_eq,if_pos h.hexDigits]
  unfold readByte?
  split
  · simp at hplus
  · simp [hne,hnumber,hlt,h.hexOf_eq]

theorem readId_of_isField (bytes : ℕ) {digits : List Char} (h : IsField (2 * bytes) digits) (hbytes : 0 < bytes)
    (field : String) (zero : ContextFault) :
    readId bytes field zero digits =
      if ¬(Identifier.ofNat (hexOf digits) : Identifier bytes).isValid then .error (.refused zero)
      else .ok (.ofNat (hexOf digits)) := by
  have hne : digits ≠ [] := by
    rintro rfl
    have := h.length
    simp at this
    omega
  have htext : Identifier.IsHexText (2 * bytes) (String.ofList digits) := by
    refine ⟨?_,?_,?_⟩ <;> rw [String.toList_ofList]
    exacts [hne,h.length.le,h.hexDigits]
  have hread := Identifier.read_of_isHexText htext
  rw [String.toList_ofList] at hread
  have hzero : (!digits.isEmpty && digits.all (· = '0')) = true ↔ ¬∃ c ∈ digits, c ≠ '0' := by simp [hne]
  rw [readId,hread,h.hexOf_eq]
  simp only [hzero,h.isValid_ofNat]

/-- Fields of the right shape are always read, so that the reader of the whole header is the reader of its parts. -/
theorem readInParts_eq (s : List Char) : readInParts s = (TraceParent.read s).value.mapError .refused := by
  cases hfields : ParentFields.read? s with
  | none =>
    rw [readInParts,hfields,read_of_none hfields]
    rfl
  | some f =>
    obtain ⟨rfl,h⟩ := ParentFields.read?_eq_some_iff.1 hfields
    have htrace := readId_of_isField 16 h.traceId (by decide) "trace_id" .zeroTraceId
    have hparent := readId_of_isField 8 h.parentId (by decide) "span_id" .zeroSpanId
    have hflags : readFlags f.flags = .ok (hexOf f.flags) := by
      have hsize := Identifier.utf8ByteSize_of_hexDigits h.flags.hexDigits
      simp [readFlags,hsize,h.flags.length,readByte?_of_isField h.flags]
    have hzero : f.version = ['0','0'] → hexOf f.version = 0 := by
      intro hversion
      rw [hversion]
      decide
    rw [readInParts,hfields,read_of_shaped h]
    simp only [htrace,hparent,hflags,readVersion,readByte?_of_isField h.version,ParentFields.parent]
    split_ifs <;> simp_all [bind,Except.bind,Except.mapError,pure,Except.pure]

end TraceParent

namespace TraceContext

variable {c : Carrier} {key : Option String}

theorem extract_of_none (h : c.values parentHeader = []) : (extract c key).value = .ok none := by
  rw [extract,Carrier.single,h]
  rfl

theorem extract_of_repeated {first second : String} {rest : List String}
    (h : c.values parentHeader = first :: second :: rest) : (extract c key).value = .error .repeatedHeader := by
  rw [extract,Carrier.single,h]
  rfl

theorem extract_of_refused {header : String} {fault : ContextFault} (h : c.values parentHeader = [header])
    (hread : (TraceParent.read (trim header.toList)).value = .error fault) : (extract c key).value = .error fault := by
  rw [extract,Carrier.single,h]
  simp only [Logged.value_bind,hread]
  rfl

theorem extract_of_read {header : String} {parent : TraceParent} (h : c.values parentHeader = [header])
    (hread : (TraceParent.read (trim header.toList)).value = .ok parent) :
    ∃ context, (extract c key).value = .ok (some context) ∧ context.parent = parent :=
  ⟨_,extract_of_parent h hread key,rfl⟩

theorem extract_cases (c : Carrier) (key : Option String) :
    c.values parentHeader = [] ∧ (extract c key).value = .ok none ∨
      (∃ fault, c.values parentHeader ≠ [] ∧ (extract c key).value = .error fault) ∨
        ∃ header context, c.values parentHeader = [header] ∧ (extract c key).value = .ok (some context) ∧
          (TraceParent.read (trim header.toList)).value = .ok context.parent := by
  cases hvalues : c.values parentHeader with
  | nil => exact .inl ⟨rfl,extract_of_none hvalues⟩
  | cons header rest =>
    cases rest with
    | cons second rest => exact .inr (.inl ⟨_,by simp,extract_of_repeated hvalues⟩)
    | nil =>
      cases hread : (TraceParent.read (trim header.toList)).value with
      | error fault => exact .inr (.inl ⟨fault,by simp,extract_of_refused hvalues hread⟩)
      | ok parent =>
        have hsome : ∃ context, (extract c key).value = .ok (some context) ∧ context.parent = parent :=
          extract_of_read hvalues hread
        obtain ⟨context,hextract,rfl⟩ := hsome
        exact .inr (.inr ⟨header,context,rfl,hextract,hread⟩)

theorem exists_extract_iff {parent : TraceParent} :
    (∃ context, (extract c key).value = .ok (some context) ∧ context.parent = parent) ↔
      ∃ header, c.values parentHeader = [header] ∧ (TraceParent.read (trim header.toList)).value = .ok parent := by
  constructor
  · rintro ⟨context,hextract,rfl⟩
    rcases extract_cases c key with ⟨-,h⟩ | ⟨fault,-,h⟩ | ⟨header,context',hvalues,h,hread⟩
    · simp [h] at hextract
    · simp [h] at hextract
    · obtain rfl : context' = context := by simpa [h] using hextract
      exact ⟨header,hvalues,hread⟩
  · rintro ⟨header,hvalues,hread⟩
    exact extract_of_read hvalues hread

/-- A request has a context if and only if its parent header stands there once, has two digits of a version, the digits
of two identifiers that are not zero and two digits of flags, and if nothing or a dash and text of one line follows
them; the version is not `ff`, and nothing follows if it is `00`. What is read are the numbers of these digits, so that
identifiers are valid, and a reader that takes each field on its own never meets digits that cannot be read. -/
theorem extract_iff_accepted :
    (∀ (c : Carrier) (key : Option String) (parent : TraceParent),
      (∃ context, (extract c key).value = .ok (some context) ∧ context.parent = parent) ↔
        ∃ (header : String) (f : ParentFields),
          c.values parentHeader = [header] ∧ trim header.toList = f.text ∧ f.Accepted ∧ f.Denotes parent) ∧
      (∀ (c : Carrier) (key : Option String), (extract c key).value = .ok none ↔ c.values parentHeader = []) ∧
      (∀ (c : Carrier) (key : Option String) (context : TraceContext),
        (extract c key).value = .ok (some context) →
          context.traceId.isValid = true ∧ context.parentId.isValid = true) ∧
      (∀ s : List Char,
        (TraceParent.readInParts s).mapError TraceParent.FieldFault.text =
          (TraceParent.read s).value.mapError ContextFault.text) ∧
      ∀ (s : List Char) (fault : TraceParent.FieldFault),
        TraceParent.readInParts s = .error fault → ∃ e, fault = .refused e := by
  refine ⟨fun c key parent => ?_,fun c key => ?_,fun c key context h => ?_,fun s => ?_,fun s fault h => ?_⟩
  · rw [exists_extract_iff]
    simp only [TraceParent.read_eq_ok_iff,exists_and_left]
  · rcases extract_cases c key with ⟨hvalues,h⟩ | ⟨fault,hvalues,h⟩ | ⟨header,context,hvalues,h,-⟩ <;>
      simp [hvalues,h]
  · obtain ⟨header,-,hread⟩ := exists_extract_iff.1 ⟨context,h,rfl⟩
    obtain ⟨f,-,hf,hdenotes⟩ := TraceParent.read_eq_ok_iff.1 hread
    have hparent := hf.denotes_iff.1 hdenotes
    rw [traceId,parentId,hparent]
    exact ⟨hf.traceId_isValid.2 hf.traceId_ne,hf.parentId_isValid.2 hf.parentId_ne⟩
  · rw [TraceParent.readInParts_eq]
    cases (TraceParent.read s).value <;> rfl
  · rw [TraceParent.readInParts_eq] at h
    cases hread : (TraceParent.read s).value with
    | ok parent => simp [hread,Except.mapError] at h
    | error e => exact ⟨e,by simpa [hread,Except.mapError] using h.symm⟩

/-- A header of a version to come, with a tail and between blanks. -/
def laterParent : Carrier :=
  .list [("TraceParent"," cc-80f198ee56343ba864fe8b2a57d3eff7-00f067aa0ba902b7-00-more ")]

def laterFields : ParentFields :=
  ⟨"cc".toList,"80f198ee56343ba864fe8b2a57d3eff7".toList,"00f067aa0ba902b7".toList,"00".toList,"-more".toList⟩

theorem extract_iff_accepted_laterParent :
    laterFields.Accepted ∧
      (∃ context, (extract laterParent none).value = .ok (some context) ∧
        context.parent = ⟨0xcc,.ofNat 0x80f198ee56343ba864fe8b2a57d3eff7,.ofNat 0xf067aa0ba902b7,0⟩ ∧
        context.traceId.isValid = true ∧ context.parentId.isValid = true) ∧
      ∃ fault, TraceParent.readInParts ("ff".toList ++ laterFields.text.drop 2) = .error fault ∧
        ∃ e, fault = .refused e := by
  obtain ⟨haccept,-,hvalid,-,hparts⟩ := extract_iff_accepted
  have hread : ParentFields.read? laterFields.text = some laterFields := by rfl
  have hshape : laterFields.Shaped := (ParentFields.read?_eq_some_iff.1 hread).2
  have haccepted : laterFields.Accepted := ⟨hshape,by decide,⟨'8',by decide,by decide⟩,⟨'f',by decide,by decide⟩,
    fun h => absurd h (by decide)⟩
  have hdenotes : laterFields.Denotes
      ⟨0xcc,.ofNat 0x80f198ee56343ba864fe8b2a57d3eff7,.ofNat 0xf067aa0ba902b7,0⟩ := by
    constructor <;> decide +kernel
  have htext : trim " cc-80f198ee56343ba864fe8b2a57d3eff7-00f067aa0ba902b7-00-more ".toList = laterFields.text := by
    decide +kernel
  obtain ⟨context,hextract,hparent⟩ :=
    (haccept laterParent none _).2 ⟨_,laterFields,by decide +kernel,htext,haccepted,hdenotes⟩
  obtain ⟨htraceId,hparentId⟩ := hvalid laterParent none context hextract
  have hreserved : TraceParent.readInParts ("ff".toList ++ laterFields.text.drop 2) =
      .error (.refused .reservedVersion) := by rfl
  exact ⟨haccepted,⟨context,hextract,hparent,htraceId,hparentId⟩,_,hreserved,hparts _ _ hreserved⟩

end TraceContext

end TraceEngine
