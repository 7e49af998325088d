import TraceEngine.Proofs.Uri.Address
import TraceEngine.Proofs.Uri.Percent
import TraceEngine.Uri.Basic

/-!
Hosts as reading leaves them. Such a host is read back from its text, and its text has nothing in it at which an
address is cut.
-/
namespace TraceEngine.Uri

open Text

variable {s : List Char} {c : Char}

/-- A name of the network: in lower case, decoded, and no address. -/
structure NetworkName (name : List Char) : Prop where
  ne_nil : name ≠ []
  allowed : ∀ c ∈ name, isForbiddenInName c.toNat = false
  lower : ∀ c ∈ name, c.toLower = c
  notNumber : endsInNumber name = false

/-- A character that is written as it is in a host of another scheme. -/
def isVerbatim (c : Char) : Bool := !isForbiddenInOther c && !isControl c

/-- Hosts as reading leaves them, by the kind of their scheme. -/
inductive Host.Canonical : SchemeKind → Host → Prop
  | name {k name} (hk : k ≠ .other) (h : NetworkName name) : Canonical k (.name name)
  | verbatim {name} (h : ∀ c ∈ name, isVerbatim c = true) : Canonical .other (.name name)
  | bytes {k value} (hk : k ≠ .other) (h : value < 2 ^ 32) : Canonical k (.bytes value)
  | pieces {k pieces} (h : EightPieces pieces) : Canonical k (.pieces pieces)

theorem Host.Canonical.ne_name_nil {k : SchemeKind} {h : Host} (hcanonical : h.Canonical k) (hk : k ≠ .other) :
    h ≠ .name [] := by
  rintro rfl
  cases hcanonical with
  | name _ hname => exact hname.ne_nil rfl
  | verbatim => contradiction

/-- The reader of hosts for a kind of scheme. -/
def readHost (k : SchemeKind) (s : List Char) : Except Fault Host := if k = .other then readOther s else readName s

theorem lt_of_allowed {n : ℕ} (h : isForbiddenInName n = false) : 0x20 < n ∧ n < 0x7f := by
  simp only [isForbiddenInName,Bool.or_eq_false_iff,decide_eq_false_iff_not,not_or,not_le] at h
  exact h.1

theorem exists_pieces_of_readBracketed {h : Host} (hread : readBracketed s = .ok h) :
    ∃ pieces, h = .pieces pieces ∧ EightPieces pieces := by
  unfold readBracketed at hread
  split at hread
  · split at hread
    · rename_i hpieces
      exact ⟨_,(Except.ok.inj hread).symm,eightPieces_of_readPieceAddress? hpieces⟩
    · contradiction
  · contradiction

theorem networkName_of_decoded {decoded : List ℕ} (hne : decoded ≠ [])
    (hallowed : ∀ n ∈ decoded, isForbiddenInName n = false)
    (hnumber : endsInNumber (decoded.map fun n => (Char.ofNat n).toLower) = false) :
    NetworkName (decoded.map fun n => (Char.ofNat n).toLower) := by
  -- Lowering a character makes it neither forbidden nor one that can be lowered again.
  have hall : ∀ n < 0x7f, isForbiddenInName n = false → isForbiddenInName (Char.ofNat n).toLower.toNat = false ∧
      (Char.ofNat n).toLower.toLower = (Char.ofNat n).toLower := by decide +kernel
  have hlower : ∀ n ∈ decoded, isForbiddenInName (Char.ofNat n).toLower.toNat = false ∧
      (Char.ofNat n).toLower.toLower = (Char.ofNat n).toLower := fun n hn =>
    hall n (lt_of_allowed (hallowed n hn)).2 (hallowed n hn)
  exact ⟨by simpa using hne,List.forall_mem_map.2 fun n hn => (hlower n hn).1,
    List.forall_mem_map.2 fun n hn => (hlower n hn).2,hnumber⟩

theorem canonical_of_readName {k : SchemeKind} {h : Host} (hk : k ≠ .other) (hread : readName s = .ok h) :
    h.Canonical k := by
  unfold readName at hread
  split at hread
  · contradiction
  · obtain ⟨_,rfl,hpieces⟩ := exists_pieces_of_readBracketed hread
    exact .pieces hpieces
  · rename_i s hne _
    dsimp only at hread
    split at hread
    · contradiction
    · rename_i hallowed
      split at hread
      · split at hread
        · rename_i hvalue
          exact Except.ok.inj hread ▸ .bytes hk (lt_of_readBytes? hvalue)
        · contradiction
      · rename_i hnumber
        exact Except.ok.inj hread ▸ .name hk (networkName_of_decoded (percentDecode_ne_nil hne)
          (by simpa using hallowed) (by simpa using hnumber))

theorem canonical_of_readOther {h : Host} (hread : readOther s = .ok h) : h.Canonical .other := by
  unfold readOther at hread
  split at hread
  · obtain ⟨_,rfl,hpieces⟩ := exists_pieces_of_readBracketed hread
    exact .pieces hpieces
  · split at hread
    · contradiction
    · rename_i hallowed
      obtain rfl := Except.ok.inj hread
      refine .verbatim (forall_mem_percentEncode (fun c hc hcontrol => ?_) (by decide) (by decide))
      have hc : isForbiddenInOther c = false := by simpa using fun h => hallowed (List.any_eq_true.2 ⟨c,hc,h⟩)
      simp [isVerbatim,hc,hcontrol]

theorem canonical_of_readHost {k : SchemeKind} {h : Host} (hread : readHost k s = .ok h) : h.Canonical k := by
  unfold readHost at hread
  split at hread
  · rename_i hk
    exact hk ▸ canonical_of_readOther hread
  · rename_i hk
    exact canonical_of_readName hk hread

theorem toNat_lt_of_isDigit (h : c.isDigit = true) : c.toNat < 128 :=
  (Char.isDigit_iff_toNat.1 h).2.trans_lt (by decide)

theorem ne_of_allowed {d : Char} (h : isForbiddenInName c.toNat = false) (hd : isForbiddenInName d.toNat = true) :
    c ≠ d := by
  rintro rfl
  rw [h] at hd
  contradiction

/-- A text that reading has nothing to change in is a name or an address of bytes. -/
theorem readName_of_allowed (hne : s ≠ []) (hallowed : ∀ c ∈ s, isForbiddenInName c.toNat = false)
    (hlower : ∀ c ∈ s, c.toLower = c) : readName s =
      if endsInNumber s then
        match readBytes? s with
        | some value => .ok (.bytes value)
        | none => .error .badFourByteAddress
      else .ok (.name s) := by
  have hdecoded : percentDecode s = s.map Char.toNat := by
    refine percentDecode_of_ascii fun c hc => ⟨?_,?_⟩
    · exact ne_of_allowed (hallowed c hc) (by decide)
    · have hlt := lt_of_allowed (hallowed c hc)
      omega
  have hname : (s.map Char.toNat).map (fun n => (Char.ofNat n).toLower) = s := by
    simpa [Function.comp_def] using List.map_congr_left hlower
  have hany : (s.map Char.toNat).any isForbiddenInName = false := by simpa using hallowed
  unfold readName
  split
  · contradiction
  · exact absurd rfl (ne_of_allowed (hallowed '[' (by simp)) (by decide))
  · simp only [hdecoded,hany,hname]
    rfl

theorem readBracketed_piecesText {pieces : List ℕ} (h : EightPieces pieces) :
    readBracketed ('[' :: piecesText pieces ++ [']']) = .ok (.pieces pieces) := by
  have hinside : (('[' :: piecesText pieces ++ [']']).drop 1).dropLast = piecesText pieces := by simp
  rw [readBracketed,if_pos List.getLast?_concat,hinside,readPieceAddress?_piecesText h]

theorem allowed_of_mem_bytesText {value : ℕ} (h : c ∈ bytesText value) :
    isForbiddenInName c.toNat = false ∧ c.toLower = c := by
  rcases isDigit_or_point_of_mem_bytesText h with hdigit | rfl
  · have hc := toNat_lt_of_isDigit hdigit
    revert hdigit
    exact of_ascii hc (by decide +kernel)
  · decide

theorem bytesText_ne_nil (value : ℕ) : bytesText value ≠ [] := by
  intro h
  have hnumber := endsInNumber_bytesText value
  rw [h] at hnumber
  revert hnumber
  decide

theorem readOther_of_verbatim (h : ∀ c ∈ s, isVerbatim c = true) : readOther s = .ok (.name s) := by
  have hc : ∀ c ∈ s, isForbiddenInOther c = false ∧ isControl c = false := by simpa [isVerbatim] using h
  unfold readOther
  split
  · exact absurd (hc '[' (by simp)).1 (by decide)
  · rw [if_neg (by simpa using fun c hs => (hc c hs).1),percentEncode_of_all_not fun c hs => (hc c hs).2]

theorem readHost_text {k : SchemeKind} {h : Host} (hcanonical : h.Canonical k) : readHost k h.text = .ok h := by
  cases hcanonical with
  | name hk hname =>
    rw [readHost,if_neg hk,Host.text,readName_of_allowed hname.ne_nil hname.allowed hname.lower,hname.notNumber]
    rfl
  | verbatim hname => rw [readHost,if_pos rfl,Host.text,readOther_of_verbatim hname]
  | bytes hk hvalue =>
    rw [readHost,if_neg hk,Host.text,readName_of_allowed (bytesText_ne_nil _)
      (fun _ hc => (allowed_of_mem_bytesText hc).1) (fun _ hc => (allowed_of_mem_bytesText hc).2),
      endsInNumber_bytesText,readBytes?_bytesText hvalue]
    rfl
  | pieces hpieces =>
    have hread := readBracketed_piecesText hpieces
    unfold readHost
    split
    · exact hread
    · exact hread

/-- A character at which no address is cut and that no reader passes over. -/
def IsHostChar (c : Char) : Prop := 0x20 < c.toNat ∧ c.toNat < 0x7f ∧ c ∉ "/?#@\\".toList

instance (c : Char) : Decidable (IsHostChar c) := inferInstanceAs (Decidable (_ ∧ _ ∧ _))

theorem ne_of_isHostChar (h : IsHostChar c) : c ≠ '/' ∧ c ≠ '?' ∧ c ≠ '#' ∧ c ≠ '@' ∧ c ≠ '\\' := by
  simpa using h.2.2

theorem isHostChar_of_allowed (h : isForbiddenInName c.toNat = false) : IsHostChar c := by
  obtain ⟨hlow,hhigh⟩ := lt_of_allowed h
  have hall : ∀ c ∈ "/?#@\\".toList, isForbiddenInName c.toNat = true :=
    List.all_eq_true.1 (by decide)
  exact ⟨hlow,hhigh,fun hcut => by simp [hall c hcut] at h⟩

theorem isHostChar_of_verbatim (h : isVerbatim c = true) : IsHostChar c := by
  have hall : ∀ c ∈ " /?#@\\".toList, (!isVerbatim c) = true :=
    List.all_eq_true.1 (by decide)
  have hspace : c.toNat ≠ 0x20 := fun hc => by
    obtain rfl : c = ' ' := Char.toNat_inj.1 hc
    simp [h] at hall
  have hcontrol : isControl c = false := by
    simp only [isVerbatim,Bool.and_eq_true,Bool.not_eq_true'] at h
    exact h.2
  simp only [isControl,decide_eq_false_iff_not,not_or,not_lt,not_le] at hcontrol
  exact ⟨by omega,hcontrol.2,fun hcut => by simpa [h] using hall c (.tail _ hcut)⟩

theorem isHostChar_of_isHexDigit (h : IsHexDigit c) : IsHostChar c := by
  have hc := h.toNat_lt
  revert h
  exact of_ascii hc (by decide +kernel)

theorem isHostChar_of_isDigit (h : c.isDigit = true) : IsHostChar c := by
  have hc := toNat_lt_of_isDigit h
  revert h
  exact of_ascii hc (by decide +kernel)

theorem isHostChar_of_mem_text {k : SchemeKind} {h : Host} (hcanonical : h.Canonical k) :
    ∀ c ∈ h.text, IsHostChar c := by
  cases hcanonical with
  | name _ hname => exact fun c hc => isHostChar_of_allowed (hname.allowed c hc)
  | verbatim hname => exact fun c hc => isHostChar_of_verbatim (hname c hc)
  | bytes => exact fun c hc => isHostChar_of_allowed (allowed_of_mem_bytesText hc).1
  | pieces =>
    intro c hc
    rcases List.mem_append.1 hc with hc | hc
    · rcases List.mem_cons.1 hc with rfl | hc
      · decide
      · rcases isHexDigit_or_colon_of_mem_piecesText hc with hdigit | rfl
        · exact isHostChar_of_isHexDigit hdigit
        · decide
    · rw [List.mem_singleton.1 hc]
      decide

theorem Host.Canonical.text_ne_nil {k : SchemeKind} {h : Host} (hcanonical : h.Canonical k) (hne : h ≠ .name []) :
    h.text ≠ [] := by
  cases hcanonical with
  | name _ hname => exact hname.ne_nil
  | verbatim => exact fun htext => hne (congrArg Host.name htext)
  | bytes => exact bytesText_ne_nil _
  | pieces => simp [Host.text]

/-- A host of the network does not look like a drive. -/
theorem isDrive_text {k : SchemeKind} {h : Host} (hcanonical : h.Canonical k) (hk : k ≠ .other) :
    isDrive h.text = false := by
  have hallowed : ∀ s, (∀ c ∈ s, isForbiddenInName c.toNat = false) → isDrive s = false := by
    intro s hs
    unfold isDrive
    split
    · rename_i letter mark
      have hmark := hs mark (by simp)
      simp [ne_of_allowed (d := ':') hmark (by decide),ne_of_allowed (d := '|') hmark (by decide)]
    · rfl
  cases hcanonical with
  | name _ hname => exact hallowed _ hname.allowed
  | verbatim => contradiction
  | bytes => exact hallowed _ fun c hc => (allowed_of_mem_bytesText hc).1
  | pieces =>
    unfold isDrive
    split
    · rename_i htext
      rw [← (List.cons.inj htext).1]
      rfl
    · rfl

theorem splitPort_append {a : List Char} (ha : ∀ c ∈ a, c ≠ ':' ∧ c ≠ '[') (rest : List Char) :
    splitPort false (a ++ rest) = (a ++ (splitPort false rest).1,(splitPort false rest).2) := by
  induction a with
  | nil => rfl
  | cons c a ih =>
    obtain ⟨hc,ha⟩ := List.forall_mem_cons.1 ha
    simp [splitPort,hc,ih ha]

theorem splitPort_bracketed {a : List Char} (ha : ∀ c ∈ a, c ≠ ']') (rest : List Char) :
    splitPort true (a ++ ']' :: rest) = (a ++ ']' :: (splitPort false rest).1,(splitPort false rest).2) := by
  induction a with
  | nil => simp [splitPort]
  | cons c a ih =>
    obtain ⟨hc,ha⟩ := List.forall_mem_cons.1 ha
    have hinside : (decide (c = '[') || c != ']') = true := by simp [hc]
    simp [splitPort,-Bool.or_eq_true,hinside,ih ha]

/-- A host is not cut at the colons in it. -/
theorem splitPort_text {k : SchemeKind} {h : Host} (hcanonical : h.Canonical k) (rest : List Char) :
    splitPort false (h.text ++ rest) = (h.text ++ (splitPort false rest).1,(splitPort false rest).2) := by
  have hallowed : ∀ c : Char, isForbiddenInName c.toNat = false → c ≠ ':' ∧ c ≠ '[' := fun c hc =>
    ⟨ne_of_allowed hc (by decide),ne_of_allowed hc (by decide)⟩
  have hverbatim : ∀ c, isVerbatim c = true → c ≠ ':' ∧ c ≠ '[' := by
    refine fun c hc => ⟨?_,?_⟩ <;>
      · rintro rfl
        revert hc
        decide
  cases hcanonical with
  | name _ hname => exact splitPort_append (fun c hc => hallowed c (hname.allowed c hc)) rest
  | verbatim hname => exact splitPort_append (fun c hc => hverbatim c (hname c hc)) rest
  | bytes => exact splitPort_append (fun c hc => hallowed c (allowed_of_mem_bytesText hc).1) rest
  | pieces =>
    rename_i ps _
    have hclosing : ∀ c ∈ piecesText ps, c ≠ ']' := by
      rintro _ hc rfl
      rcases isHexDigit_or_colon_of_mem_piecesText hc with hdigit | hcolon
      · exact absurd (isDigitOf_of_isHexDigit hdigit) (by decide)
      · exact absurd hcolon (by decide)
    simp [Host.text,splitPort,splitPort_bracketed hclosing rest]

end TraceEngine.Uri
