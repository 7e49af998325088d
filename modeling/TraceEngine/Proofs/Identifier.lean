import Mathlib.Data.Nat.Digits.Lemmas
import Mathlib.Data.String.Basic
import TraceEngine.Proofs.Text.Numerals

/-!
Identifiers as text and as bytes. Any run of digits that is not too long is read as the number that it denotes in base
sixteen, whichever way its bytes are filled, and is written with its zeros in front; the order of identifiers is that of
their bytes and that of their texts.
-/
namespace TraceEngine

namespace Text

variable {s : List Char} {c : Char}

/-- The digits, each at the place that is its value. -/
def hexAlphabet : List Char := "0123456789abcdef".toList

def IsHexDigit (c : Char) : Prop := c.toLower ∈ hexAlphabet

instance (c : Char) : Decidable (IsHexDigit c) := inferInstanceAs (Decidable (c.toLower ∈ hexAlphabet))

/-- The number that digits denote in base sixteen, the last digit being that of the units. -/
def hexDenoted (s : List Char) : ℕ := Nat.ofDigits 16 (s.reverse.map fun c => hexAlphabet.idxOf c.toLower)

def HexDigits (s : List Char) : Prop := ∀ c ∈ s, IsHexDigit c

-- Along the list, not over all characters.
instance (s : List Char) : Decidable (HexDigits s) := List.decidableBAll _ s

theorem lt_of_mem_hexAlphabet (h : c ∈ hexAlphabet) : c.toNat < 128 := by
  have hall : hexAlphabet.all (·.toNat < 128) = true := by decide
  simpa using List.all_eq_true.1 hall c h

theorem hexDigit_idxOf (h : c ∈ hexAlphabet) : hexDigit (hexAlphabet.idxOf c) = c := by
  have hall : hexAlphabet.all (fun c => hexDigit (hexAlphabet.idxOf c) = c) = true := by decide
  simpa using List.all_eq_true.1 hall c h

theorem idxOf_lt (h : IsHexDigit c) : hexAlphabet.idxOf c.toLower < 16 := List.idxOf_lt_length_iff.2 h

theorem IsHexDigit.toNat_lt (h : IsHexDigit c) : c.toNat < 128 := by
  have hlower := lt_of_mem_hexAlphabet h
  unfold Char.toLower at hlower
  split at hlower
  · rename_i hupper
    have hz : c.toNat ≤ 90 := hupper.2
    omega
  · exact hlower

theorem toNat_lt_of_hexValue? {value : ℕ} (h : hexValue? c = some value) : c.toNat < 128 := by
  simp only [hexValue?,Char.le_def,UInt32.le_iff_toNat_le] at h
  split at h
  · rename_i hc
    exact hc.2.trans_lt (by decide)
  · split at h
    · rename_i hc
      exact hc.2.trans_lt (by decide)
    · split at h
      · rename_i hc
        exact hc.2.trans_lt (by decide)
      · contradiction

theorem hexValue?_eq (c : Char) :
    hexValue? c = if IsHexDigit c then some (hexAlphabet.idxOf c.toLower) else none := by
  by_cases hc : c.toNat < 128
  · have hall : ∀ n < 128, hexValue? (Char.ofNat n) =
        if IsHexDigit (Char.ofNat n) then some (hexAlphabet.idxOf (Char.ofNat n).toLower) else none := by
      decide +kernel
    simpa using hall c.toNat hc
  · rw [if_neg fun h => hc h.toNat_lt]
    exact Option.eq_none_iff_forall_ne_some.2 fun _ h => hc (toNat_lt_of_hexValue? h)

theorem isLowerHex_iff : isLowerHex c = true ↔ c ∈ hexAlphabet := by
  by_cases hc : c.toNat < 128
  · have hall : ∀ n < 128, isLowerHex (Char.ofNat n) = true ↔ Char.ofNat n ∈ hexAlphabet := by decide +kernel
    simpa using hall c.toNat hc
  · exact iff_of_false (fun h => hc ((toNat_of_isLowerHex h).2.trans_lt (by decide)))
      fun h => hc (lt_of_mem_hexAlphabet h)

theorem isHexDigit_of_mem (h : c ∈ hexAlphabet) : IsHexDigit c := by
  have hall : HexDigits hexAlphabet := by decide
  exact hall c h

theorem hexDenoted_cons (c : Char) (s : List Char) :
    hexDenoted (c :: s) = hexAlphabet.idxOf c.toLower * 16 ^ s.length + hexDenoted s := by
  simp [hexDenoted,Nat.ofDigits_append,Nat.mul_comm,Nat.add_comm]

theorem hexDenoted_concat (s : List Char) (c : Char) :
    hexDenoted (s ++ [c]) = 16 * hexDenoted s + hexAlphabet.idxOf c.toLower := by
  simp [hexDenoted,Nat.ofDigits_cons,Nat.add_comm]

theorem hexDenoted_lt (h : HexDigits s) : hexDenoted s < 16 ^ s.length := by
  have hlt := Nat.ofDigits_lt_base_pow_length (b := 16) (l := s.reverse.map fun c => hexAlphabet.idxOf c.toLower)
    (by decide) (by simpa using fun c hc => idxOf_lt (h c hc))
  simpa [hexDenoted] using hlt

theorem hexDigits_concat : HexDigits (s ++ [c]) ↔ HexDigits s ∧ IsHexDigit c := by
  rw [HexDigits,List.forall_mem_append,List.forall_mem_singleton]
  rfl

theorem hexNumber?_eq (s : List Char) : hexNumber? s = if HexDigits s then some (hexDenoted s) else none := by
  induction s using List.reverseRecOn with
  | nil => rfl
  | append_singleton s c ih =>
    rw [hexNumber?] at ih ⊢
    rw [List.foldlM_append,ih]
    by_cases hs : HexDigits s
    · by_cases hc : IsHexDigit c
      · rw [if_pos hs,if_pos (hexDigits_concat.2 ⟨hs,hc⟩),hexDenoted_concat]
        simp [hexValue?_eq,hc]
      · rw [if_pos hs,if_neg fun h => hc (hexDigits_concat.1 h).2]
        simp [hexValue?_eq,hc]
    · rw [if_neg hs,if_neg fun h => hs (hexDigits_concat.1 h).1]
      rfl

theorem hexDigits_fixedHex (width n : ℕ) : HexDigits (fixedHex width n) := fun _ hc =>
  isHexDigit_of_mem (isLowerHex_iff.1 (isLowerHex_of_mem_fixedHex hc))

theorem hexDenoted_fixedHex (width n : ℕ) : hexDenoted (fixedHex width n) = n % 16 ^ width := by
  have hnumber := hexNumber?_fixedHex width n
  rw [hexNumber?_eq,if_pos (hexDigits_fixedHex width n)] at hnumber
  exact Option.some.inj hnumber

theorem fixedHex_zero (width : ℕ) : fixedHex width 0 = List.replicate width '0' := by
  induction width with
  | zero => rfl
  | succ width ih => simp [fixedHex,ih,hexDigit,List.replicate_succ']

/-- Digits that were read are written in lower case, behind as many zeros as there is room for. -/
theorem fixedHex_hexDenoted {width : ℕ} (hs : HexDigits s) (h : s.length ≤ width) :
    fixedHex width (hexDenoted s) = (s.map Char.toLower).leftpad width '0' := by
  induction s using List.reverseRecOn generalizing width with
  | nil => simp [hexDenoted,fixedHex_zero,List.leftpad]
  | append_singleton s c ih =>
    obtain ⟨hs,hc⟩ := hexDigits_concat.1 hs
    have hvalue := idxOf_lt hc
    cases width with
    | zero => simp at h
    | succ width =>
      have hfront := ih hs (by simpa using h)
      have hdiv : (16 * hexDenoted s + hexAlphabet.idxOf c.toLower) / 16 = hexDenoted s := by omega
      have hmod : (16 * hexDenoted s + hexAlphabet.idxOf c.toLower) % 16 = hexAlphabet.idxOf c.toLower := by omega
      rw [fixedHex,hexDenoted_concat,hdiv,hmod,hfront,hexDigit_idxOf hc]
      simp [List.leftpad]

end Text

section Digits

variable {α : Type} {f : ℕ → α} {base width m n : ℕ}

/-- The last digits of a number in a base, the first being the most significant, and each shown by `f`. -/
def digitsBy (f : ℕ → α) (base : ℕ) : ℕ → ℕ → List α
  | 0, _ => []
  | width + 1, n => digitsBy f base width (n / base) ++ [f (n % base)]

theorem length_digitsBy (f : ℕ → α) (base width n : ℕ) : (digitsBy f base width n).length = width := by
  induction width generalizing n with
  | zero => rfl
  | succ width ih => simp [digitsBy,ih]

theorem fixedHex_eq (width n : ℕ) : Text.fixedHex width n = digitsBy Text.hexDigit 16 width n := by
  induction width generalizing n with
  | zero => rfl
  | succ width ih => rw [Text.fixedHex,digitsBy,ih]

theorem lowBytes_eq (count n : ℕ) : Identifier.lowBytes count n = digitsBy id 256 count n := by
  induction count generalizing n with
  | zero => rfl
  | succ count ih => rw [Identifier.lowBytes,digitsBy,ih,id]

variable [LinearOrder α]

theorem concat_lt_concat {a b : List α} (h : a.length = b.length) {x y : α} :
    a ++ [x] < b ++ [y] ↔ a < b ∨ a = b ∧ x < y := by
  induction a generalizing b with
  | nil =>
    obtain rfl : b = [] := List.length_eq_zero_iff.1 h.symm
    simp [List.cons_lt_cons_iff]
  | cons d a ih =>
    cases b with
    | nil => simp at h
    | cons e b =>
      have hrest := ih (b := b) (by simpa using h)
      simp only [List.cons_append,List.cons_lt_cons_iff,hrest,List.cons.injEq]
      tauto

theorem digitsBy_strictMonoOn (hf : StrictMonoOn f (Set.Iio base)) (hbase : 0 < base) (width : ℕ) :
    StrictMonoOn (digitsBy f base width) (Set.Iio (base ^ width)) := by
  induction width with
  | zero =>
    intro m hm n hn hlt
    simp only [Set.mem_Iio,pow_zero,Nat.lt_one_iff] at hm hn
    omega
  | succ width ih =>
    intro m hm n hn hlt
    simp only [Set.mem_Iio,pow_succ] at hm hn
    have hlength : (digitsBy f base width (m / base)).length = (digitsBy f base width (n / base)).length := by
      rw [length_digitsBy,length_digitsBy]
    rw [digitsBy,digitsBy,concat_lt_concat hlength]
    rcases (Nat.div_le_div_right (c := base) hlt.le).lt_or_eq with hdiv | hdiv
    · exact .inl (ih (Nat.div_lt_of_lt_mul (Nat.mul_comm _ _ ▸ hm)) (Nat.div_lt_of_lt_mul (Nat.mul_comm _ _ ▸ hn)) hdiv)
    · refine .inr ⟨by rw [hdiv],hf (Nat.mod_lt m hbase) (Nat.mod_lt n hbase) ?_⟩
      have hm' := Nat.div_add_mod m base
      have hn' := Nat.div_add_mod n base
      rw [hdiv] at hm'
      omega

end Digits

namespace Identifier

open Text

/-- Puts the value of a digit into one half of a byte. Halves are counted from the front, the high one of a byte before
the low one. -/
def putHalf (values : List ℕ) (position value : ℕ) : List ℕ :=
  values.modify (position / 2) (· ||| if position % 2 = 0 then value <<< 4 else value)

/-- Reads digits into the halves from a position on. -/
def fillHalves : List ℕ → ℕ → List Char → Option (List ℕ)
  | values, _, [] => some values
  | values, position, c :: rest =>
    match hexValue? c with
    | none => none
    | some value => fillHalves (putHalf values position value) (position + 1) rest

/-- The reader of a text that ends at the last half of bytes that were zero. -/
def readByHalves (bytes : ℕ) (s : String) : Except IdentifierFault (Identifier bytes) :=
  if s.isEmpty then .error .empty
  else if 2 * bytes < s.utf8ByteSize then .error (.tooLong s.utf8ByteSize (2 * bytes))
  else
    match fillHalves (List.replicate bytes 0) (2 * bytes - s.utf8ByteSize) s.toList with
    | some values => .ok (ofBytes values)
    | none => .error .notHexadecimal

def bigEndian (values : List ℕ) : ℕ := values.foldl (256 * · + ·) 0

/-- Nothing was put into the halves from a position on. -/
def Unset (values : List ℕ) (position : ℕ) : Prop :=
  ∀ k (h : k < values.length), (position ≤ 2 * k → values[k] = 0) ∧ (position ≤ 2 * k + 1 → values[k] % 16 = 0)

variable {values : List ℕ} {position value : ℕ}

theorem bigEndian_eq (values : List ℕ) : bigEndian values = Nat.ofDigits 256 values.reverse := by
  rw [bigEndian,Nat.ofDigits_eq_foldr,List.foldr_reverse]
  simp [Nat.add_comm]

theorem bigEndian_modify {k added : ℕ} {f : ℕ → ℕ} (h : k < values.length) (hf : f values[k] = values[k] + added) :
    bigEndian (values.modify k f) = bigEndian values + added * 256 ^ (values.length - (k + 1)) := by
  have hsplit : bigEndian values = bigEndian (values.take k ++ values[k] :: values.drop (k + 1)) := by simp
  rw [List.modify_eq_take_cons_drop h,hf,hsplit]
  simp only [bigEndian_eq,List.reverse_append,List.reverse_cons,Nat.ofDigits_append,Nat.ofDigits_cons,
    List.length_append,List.length_reverse,List.length_drop,List.length_cons,List.length_nil]
  ring

theorem length_putHalf (values : List ℕ) (position value : ℕ) :
    (putHalf values position value).length = values.length := by
  simp [putHalf]

theorem bigEndian_putHalf (h : Unset values position) (hposition : position < 2 * values.length) (hvalue : value < 16) :
    bigEndian (putHalf values position value) =
      bigEndian values + value * 16 ^ (2 * values.length - (position + 1)) := by
  have hk : position / 2 < values.length := by omega
  obtain ⟨hboth,hlow⟩ := h (position / 2) hk
  have hpow : (256 : ℕ) = 16 ^ 2 := rfl
  by_cases heven : position % 2 = 0
  · have hput : values[position / 2] ||| value <<< 4 = values[position / 2] + value * 16 := by
      simp [hboth (by omega),Nat.shiftLeft_eq]
    have hexponent : 2 * values.length - (position + 1) = 2 * (values.length - (position / 2 + 1)) + 1 := by omega
    rw [putHalf,bigEndian_modify hk (by simpa [heven] using hput),hexponent,hpow,← pow_mul]
    ring
  · have hput : values[position / 2] ||| value = values[position / 2] + value := by
      have hdiv : values[position / 2] = 2 ^ 4 * (values[position / 2] / 16) := by omega
      rw [hdiv,Nat.two_pow_add_eq_or_of_lt hvalue]
    have hexponent : 2 * values.length - (position + 1) = 2 * (values.length - (position / 2 + 1)) := by omega
    rw [putHalf,bigEndian_modify hk (by simpa [heven] using hput),hexponent,hpow,← pow_mul]

theorem Unset.putHalf (h : Unset values position) (value : ℕ) :
    Unset (putHalf values position value) (position + 1) := by
  intro k hk
  have hlength : k < values.length := by simpa [length_putHalf] using hk
  obtain ⟨hboth,hlow⟩ := h k hlength
  by_cases hplace : position / 2 = k
  · -- What may still be unset is the low half, after the high one was put.
    subst hplace
    refine ⟨fun _ => by omega,fun _ => ?_⟩
    have heven : position % 2 = 0 := by omega
    simp [Identifier.putHalf,heven,hboth (by omega),Nat.shiftLeft_eq]
  · simp only [Identifier.putHalf,List.getElem_modify,if_neg hplace]
    exact ⟨fun _ => hboth (by omega),fun _ => hlow (by omega)⟩

theorem unset_replicate (bytes position : ℕ) : Unset (List.replicate bytes 0) position := by
  intro k hk
  simp

theorem fillHalves_eq_none {s : List Char} {c : Char} (h : c ∈ s) (hc : ¬IsHexDigit c) :
    fillHalves values position s = none := by
  induction s generalizing values position with
  | nil => simp at h
  | cons d s ih =>
    rw [fillHalves,hexValue?_eq]
    rcases List.mem_cons.1 h with rfl | h
    · rw [if_neg hc]
    · split
      · rfl
      · exact ih h

/-- The bytes that were filled are those of the number that all the digits denote. -/
theorem exists_fillHalves {s : List Char} (h : Unset values position)
    (hlength : position + s.length = 2 * values.length) (hs : HexDigits s) :
    ∃ filled, fillHalves values position s = some filled ∧ bigEndian filled = bigEndian values + hexDenoted s := by
  induction s generalizing values position with
  | nil => exact ⟨values,rfl,rfl⟩
  | cons c s ih =>
    obtain ⟨hc,hs⟩ := List.forall_mem_cons.1 hs
    rw [List.length_cons] at hlength
    obtain ⟨filled,hfilled,hvalue⟩ :=
      ih (h.putHalf (hexAlphabet.idxOf c.toLower)) (by rw [length_putHalf]; omega) hs
    have hexponent : 2 * values.length - (position + 1) = s.length := by omega
    have hput := bigEndian_putHalf h (by omega) (idxOf_lt hc)
    refine ⟨filled,?_,?_⟩
    · rw [fillHalves,hexValue?_eq,if_pos hc]
      exact hfilled
    · rw [hvalue,hput,hexponent,hexDenoted_cons,Nat.add_assoc]

theorem utf8ByteSize_of_hexDigits {s : List Char} (h : HexDigits s) :
    (String.ofList s).utf8ByteSize = s.length := by
  induction s with
  | nil => rfl
  | cons c s ih =>
    obtain ⟨hc,hs⟩ := List.forall_mem_cons.1 h
    have hle : c.toNat ≤ 127 := Nat.le_of_lt_succ hc.toNat_lt
    have hsize : c.utf8Size = 1 := Char.utf8Size_eq_one_iff.2 (UInt32.le_iff_toNat_le.2 hle)
    rw [← List.singleton_append,String.ofList_append,String.utf8ByteSize_append,ih hs]
    simp [hsize,Nat.add_comm]

theorem readByHalves_eq (bytes : ℕ) (s : String) : readByHalves bytes s = read s := by
  unfold readByHalves read
  split
  · rfl
  · split
    · rfl
    · rename_i hsize
      rw [hexNumber?_eq]
      by_cases hs : HexDigits s.toList
      · have hlength : s.utf8ByteSize = s.toList.length := by simpa using utf8ByteSize_of_hexDigits hs
        obtain ⟨filled,hfilled,hvalue⟩ :=
          exists_fillHalves (unset_replicate bytes (2 * bytes - s.utf8ByteSize)) (s := s.toList) (by simp; omega) hs
        have hzero : bigEndian (List.replicate bytes 0) = 0 := by simp [bigEndian_eq,Nat.ofDigits_replicate_zero]
        have hread : (ofBytes filled : Identifier bytes) = ofNat (hexDenoted s.toList) := by
          rw [ofBytes,← bigEndian,hvalue,hzero,Nat.zero_add]
        rw [if_pos hs,hfilled]
        exact congrArg Except.ok hread
      · obtain ⟨c,hc,hnot⟩ : ∃ c ∈ s.toList, ¬IsHexDigit c := by simpa [HexDigits] using hs
        rw [if_neg hs,fillHalves_eq_none hc hnot]

variable {bytes n : ℕ} {s : String} {id : Identifier bytes}

/-- One digit at least and as many as the limit at most. -/
@[mk_iff]
structure IsHexText (limit : ℕ) (s : String) : Prop where
  ne : s.toList ≠ []
  length_le : s.toList.length ≤ limit
  digits : HexDigits s.toList

instance (limit : ℕ) (s : String) : Decidable (IsHexText limit s) := decidable_of_iff' _ (isHexText_iff limit s)

theorem toNat_lt (id : Identifier bytes) : id.toNat < 2 ^ (8 * bytes) := id.value.isLt

theorem toNat_ofNat (h : n < 2 ^ (8 * bytes)) : (ofNat n : Identifier bytes).toNat = n := by
  simp [toNat,ofNat,Nat.mod_eq_of_lt h]

theorem ofNat_toNat (id : Identifier bytes) : ofNat id.toNat = id := by
  simp [toNat,ofNat]

theorem sixteen_pow (bytes : ℕ) : 16 ^ (2 * bytes) = 2 ^ (8 * bytes) := by
  rw [show 16 = 2 ^ 4 from rfl,← pow_mul]
  congr 1
  omega

theorem read_of_isHexText (h : IsHexText (2 * bytes) s) :
    read s = .ok (ofNat (hexDenoted s.toList) : Identifier bytes) := by
  have hsize : s.utf8ByteSize = s.toList.length := by simpa using utf8ByteSize_of_hexDigits h.digits
  have hempty : s.isEmpty = false := by simpa using h.ne
  have hlimit : ¬2 * bytes < s.utf8ByteSize := by have := h.length_le; omega
  rw [read,if_neg (by simp [hempty]),if_neg hlimit,hexNumber?_eq,if_pos h.digits]

theorem isHexText_of_read (h : read s = .ok id) : IsHexText (2 * bytes) s := by
  unfold read at h
  split at h
  · contradiction
  · rename_i hempty
    split at h
    · contradiction
    · rename_i hlimit
      have hs : HexDigits s.toList := by
        by_contra hs
        rw [hexNumber?_eq,if_neg hs] at h
        contradiction
      have hsize : s.utf8ByteSize = s.toList.length := by simpa using utf8ByteSize_of_hexDigits hs
      exact ⟨by simpa using hempty,by omega,hs⟩

theorem toNat_of_read (h : read s = .ok id) : id.toNat = hexDenoted s.toList := by
  have hs := isHexText_of_read h
  rw [read_of_isHexText hs] at h
  obtain rfl := Except.ok.inj h
  refine toNat_ofNat ((hexDenoted_lt hs.digits).trans_le ?_)
  rw [← sixteen_pow]
  exact Nat.pow_le_pow_right (by decide) hs.length_le

theorem read_text (h : 0 < bytes) (id : Identifier bytes) : read id.text = .ok id := by
  have htext : id.text.toList = fixedHex (2 * bytes) id.toNat := by simp [text,digits]
  have hs : IsHexText (2 * bytes) id.text := by
    refine ⟨?_,?_,?_⟩
    · rw [htext,← List.length_pos_iff,length_fixedHex]
      omega
    · rw [htext,length_fixedHex]
    · rw [htext]
      exact hexDigits_fixedHex _ _
  rw [read_of_isHexText hs,htext,hexDenoted_fixedHex,Nat.mod_eq_of_lt (sixteen_pow bytes ▸ id.toNat_lt),ofNat_toNat]

theorem bigEndian_lowBytes (count n : ℕ) : bigEndian (lowBytes count n) = n % 256 ^ count := by
  induction count generalizing n with
  | zero => simp [lowBytes,bigEndian,Nat.mod_one]
  | succ count ih =>
    have hfront := ih (n / 256)
    rw [bigEndian] at hfront ⊢
    rw [lowBytes,List.foldl_append,hfront]
    simp [Nat.pow_succ,Nat.mul_comm _ 256,Nat.mod_mul,Nat.add_comm]

theorem ofBytes_toBytes (id : Identifier bytes) : ofBytes id.toBytes = id := by
  have hpow : 256 ^ bytes = 2 ^ (8 * bytes) := by rw [pow_mul]; rfl
  rw [ofBytes,← bigEndian,toBytes,bigEndian_lowBytes,Nat.mod_eq_of_lt (hpow ▸ id.toNat_lt),ofNat_toNat]

theorem toBytes_le_iff (a b : Identifier bytes) : a.toBytes ≤ b.toBytes ↔ a.toNat ≤ b.toNat := by
  have hpow : 256 ^ bytes = 2 ^ (8 * bytes) := by rw [pow_mul]; rfl
  have hmono := digitsBy_strictMonoOn strictMonoOn_id (show 0 < 256 by decide) bytes
  rw [toBytes,toBytes,lowBytes_eq,lowBytes_eq]
  exact hmono.le_iff_le (hpow ▸ a.toNat_lt) (hpow ▸ b.toNat_lt)

theorem hexDigit_strictMonoOn : StrictMonoOn hexDigit (Set.Iio 16) := by
  have hall : ∀ n < 16, ∀ m < n, hexDigit m < hexDigit n := by decide
  exact fun m _ n hn hlt => hall n hn m hlt

theorem text_le_iff (a b : Identifier bytes) : a.text ≤ b.text ↔ a.toNat ≤ b.toNat := by
  have hmono := digitsBy_strictMonoOn hexDigit_strictMonoOn (show 0 < 16 by decide) (2 * bytes)
  rw [String.le_iff_toList_le,text,text,String.toList_ofList,String.toList_ofList,digits,digits,fixedHex_eq,
    fixedHex_eq]
  exact hmono.le_iff_le (sixteen_pow bytes ▸ a.toNat_lt) (sixteen_pow bytes ▸ b.toNat_lt)

/-- Texts, bytes and numbers of identifiers say the same. A text is read if and only if it has one digit at least and
two for each byte at most, and then as the number that it denotes, whether the number is read or the bytes are filled;
it is written again in lower case with zeros in front; what is written is read; and whatever identifiers are compared
by, the order is the same. -/
theorem read_faithful (hbytes : 0 < bytes) :
    (∀ s : String, (∃ id : Identifier bytes, read s = .ok id) ↔ IsHexText (2 * bytes) s) ∧
      (∀ (s : String) (id : Identifier bytes), read s = .ok id →
        id.toNat = hexDenoted s.toList ∧
          id.text = String.ofList ((s.toList.map Char.toLower).leftpad (2 * bytes) '0')) ∧
      (∀ s : String, readByHalves bytes s = read s) ∧
      (∀ id : Identifier bytes, read id.text = .ok id ∧ ofBytes id.toBytes = id) ∧
      ∀ a b : Identifier bytes,
        (a ≤ b ↔ a.toBytes ≤ b.toBytes) ∧ (a ≤ b ↔ a.toNat ≤ b.toNat) ∧ (a ≤ b ↔ a.text ≤ b.text) := by
  refine ⟨fun s => ⟨?_,?_⟩,fun s id h => ⟨toNat_of_read h,?_⟩,readByHalves_eq bytes,
    fun id => ⟨read_text hbytes id,ofBytes_toBytes id⟩,fun a b => ⟨?_,Iff.rfl,?_⟩⟩
  · rintro ⟨id,h⟩
    exact isHexText_of_read h
  · intro h
    exact ⟨_,read_of_isHexText h⟩
  · have hs := isHexText_of_read h
    rw [text,digits,toNat_of_read h,fixedHex_hexDenoted hs.digits hs.length_le]
  · exact (toBytes_le_iff a b).symm
  · exact (text_le_iff a b).symm

/-- Three digits of a trace, one of them a capital letter, and a text that is too long for a span. -/
theorem read_faithful_shortText :
    0 < 16 ∧ IsHexText 32 "aBc" ∧
      (∃ id : TraceId, read "aBc" = .ok id ∧ id.toNat = 0xabc ∧ id.text = "00000000000000000000000000000abc") ∧
      0 < 8 ∧ ¬∃ id : SpanId, read "00f067aa0ba902b7ff" = .ok id := by
  have hshort : IsHexText 32 "aBc" := by decide +kernel
  have hlong : ¬IsHexText 16 "00f067aa0ba902b7ff" := by decide +kernel
  obtain ⟨haccept,hvalue,-⟩ := @read_faithful 16 (by decide)
  obtain ⟨id,hid⟩ := (haccept "aBc").2 hshort
  obtain ⟨hnumber,htext⟩ := hvalue "aBc" id hid
  have hdenoted : hexDenoted "aBc".toList = 0xabc := by decide +kernel
  refine ⟨by decide,hshort,⟨id,hid,hnumber.trans hdenoted,htext.trans (by decide +kernel)⟩,by decide,fun h => ?_⟩
  exact hlong (((@read_faithful 8 (by decide)).1 _).1 h)

end Identifier

end TraceEngine
