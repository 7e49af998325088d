import Mathlib.Tactic.IntervalCases
import TraceEngine.Identifier
import TraceEngine.Text.Natural

/-!
Numbers as text and back: what is written in decimal or in hexadecimal digits of a fixed width is read as the
same number, up to the limit of the reader or the width.
-/
namespace TraceEngine.Text

variable {limit value n : ℕ} {s : List Char}

theorem digit?_of_isDigit {c : Char} (h : c.isDigit = true) : digit? c = some (c.toNat - 48) := by
  have hc : '0' ≤ c ∧ c ≤ '9' := by simpa [Char.isDigit,Char.le_def] using h
  simp [digit?,hc]

theorem le_ofDigitChars (s : List Char) (value : ℕ) : value ≤ Nat.ofDigitChars 10 s value := by
  rw [Nat.ofDigitChars_eq_ofDigitChars_zero]
  exact Nat.le_add_right_of_le (Nat.le_mul_of_pos_left value (by positivity))

/-- Digits are read in full if the number they denote is within the limit. -/
theorem readDigits_of_digits (hs : ∀ c ∈ s, c.isDigit = true) (h : Nat.ofDigitChars 10 s value ≤ limit) :
    readDigits limit value s = .ok (Nat.ofDigitChars 10 s value) := by
  induction s generalizing value with
  | nil => simp [readDigits]
  | cons c s ih =>
    rw [Nat.ofDigitChars_cons] at h ⊢
    have hstep : value * 10 + (c.toNat - 48) = 10 * value + (c.toNat - '0'.toNat) := by
      simp [Nat.mul_comm]
    have hle := le_ofDigitChars s (10 * value + (c.toNat - '0'.toNat))
    have hlimit : ¬limit < 10 * value + (c.toNat - '0'.toNat) := by omega
    simp only [readDigits,digit?_of_isDigit (hs c (by simp)),hstep,if_neg hlimit]
    exact ih (fun c hc => hs c (by simp [hc])) h

theorem readNatural_of_digits (hne : s ≠ []) (hs : ∀ c ∈ s, c.isDigit = true)
    (h : Nat.ofDigitChars 10 s 0 ≤ limit) : readNatural limit s = .ok (Nat.ofDigitChars 10 s 0) := by
  cases s with
  | nil => simp at hne
  | cons c s =>
    have hc : c ≠ '+' := by
      rintro rfl
      simpa using hs '+' (by simp)
    simpa [readNatural,hc] using readDigits_of_digits hs h

@[simp] theorem decimal_ne_nil (n : ℕ) : decimal n ≠ [] := Nat.toDigits_ne_nil

theorem isDigit_of_mem_decimal {c : Char} (h : c ∈ decimal n) : c.isDigit = true :=
  Nat.isDigit_of_mem_toDigits (by decide) (by decide) h

@[simp] theorem ofDigitChars_decimal (n : ℕ) : Nat.ofDigitChars 10 (decimal n) 0 = n :=
  Nat.ofDigitChars_ten_toDigits

@[simp] theorem toList_toString (n : ℕ) : (toString n).toList = decimal n := Nat.toList_repr

theorem readNatural_decimal (h : n ≤ limit) : readNatural limit (decimal n) = .ok n := by
  have hread := readNatural_of_digits (decimal_ne_nil n) (fun c hc => isDigit_of_mem_decimal hc) (by simpa using h)
  simpa using hread

theorem readDigits_le (hvalue : value ≤ limit) (h : readDigits limit value s = .ok n) : n ≤ limit := by
  induction s generalizing value with
  | nil => exact Except.ok.inj h ▸ hvalue
  | cons c s ih =>
    rw [readDigits] at h
    split at h
    · contradiction
    · split at h
      · contradiction
      next hle => exact ih (not_lt.1 hle) h

theorem readNatural_le (h : readNatural limit s = .ok n) : n ≤ limit := by
  unfold readNatural at h
  split at h
  · contradiction
  · split at h
    · contradiction
    · exact readDigits_le (Nat.zero_le _) h
  · exact readDigits_le (Nat.zero_le _) h

theorem isDigit_of_mem_paddedDecimal {width : ℕ} {c : Char} (h : c ∈ paddedDecimal width n) :
    c.isDigit = true := by
  rcases List.mem_append.1 h with hc | hc
  · rw [List.eq_of_mem_replicate hc]
    decide
  · exact isDigit_of_mem_decimal hc

theorem length_paddedDecimal {width : ℕ} (h : n < 10 ^ width) (hw : 0 < width) :
    (paddedDecimal width n).length = width := by
  have hlen : (decimal n).length ≤ width := (Nat.length_toDigits_le_iff (by decide) hw).2 h
  simp [paddedDecimal]
  omega

/-- Zeros in front count for nothing but their number. -/
@[simp] theorem ofDigitChars_paddedDecimal (width n : ℕ) :
    Nat.ofDigitChars 10 (paddedDecimal width n) 0 = n := by
  simp [paddedDecimal,Nat.ofDigitChars_append,Nat.ofDigitChars_replicate_zero]

/-- A number cut into two runs of digits, the second of a fixed width, is denoted by the two together. -/
theorem ofDigitChars_split (n : ℕ) {width : ℕ} (hw : 0 < width) :
    Nat.ofDigitChars 10 (decimal (n / 10 ^ width) ++ paddedDecimal width (n % 10 ^ width)) 0 = n := by
  have hlen := length_paddedDecimal (Nat.mod_lt n (show 0 < 10 ^ width by positivity)) hw
  rw [Nat.ofDigitChars_append,Nat.ofDigitChars_eq_ofDigitChars_zero,hlen]
  simp [Nat.div_add_mod]

theorem hexValue?_hexDigit (h : n < 16) : hexValue? (hexDigit n) = some n := by
  interval_cases n <;> decide

theorem isLowerHex_hexDigit (h : n < 16) : isLowerHex (hexDigit n) = true := by
  interval_cases n <;> decide

theorem isLowerHex_of_mem_fixedHex {width : ℕ} {c : Char} (h : c ∈ fixedHex width n) : isLowerHex c = true := by
  induction width generalizing n with
  | zero => simp [fixedHex] at h
  | succ width ih =>
    rcases List.mem_append.1 h with hc | hc
    · exact ih hc
    · rw [List.mem_singleton.1 hc]
      exact isLowerHex_hexDigit (Nat.mod_lt n (by decide))

theorem toNat_of_isLowerHex {c : Char} (h : isLowerHex c = true) : 48 ≤ c.toNat ∧ c.toNat ≤ 102 := by
  simp only [isLowerHex,Char.le_def,UInt32.le_iff_toNat_le,decide_eq_true_eq] at h
  rcases h with ⟨hlow,hhigh⟩ | ⟨hlow,hhigh⟩
  · exact ⟨hlow,hhigh.trans (by decide)⟩
  · exact ⟨le_trans (by decide) hlow,hhigh⟩

/-- What is left of a number in its last digits. -/
theorem hexNumber?_fixedHex (width n : ℕ) : hexNumber? (fixedHex width n) = some (n % 16 ^ width) := by
  induction width generalizing n with
  | zero => simp [fixedHex,hexNumber?,Nat.mod_one]
  | succ width ih =>
    have hlast := hexValue?_hexDigit (Nat.mod_lt n (show 0 < 16 by decide))
    have hfront := ih (n / 16)
    simp only [hexNumber?] at hfront ⊢
    simp only [fixedHex,List.foldlM_append,hfront]
    simp [hlast,Nat.pow_succ,Nat.mul_comm _ 16,Nat.mod_mul,Nat.add_comm]

end TraceEngine.Text
