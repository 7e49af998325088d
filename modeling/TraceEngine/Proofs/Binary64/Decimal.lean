import Mathlib.Data.List.TakeWhile
import Mathlib.Tactic.MkIffOfInductiveProp
import TraceEngine.Binary64.Decimal
import TraceEngine.Binary64.Reading
import TraceEngine.Proofs.Binary64.Magnitude
import TraceEngine.Proofs.Text.Numerals

/-!
Numbers with a fixed number of decimal places, written and read back. What is read is the number nearest to the
rational that the text denotes, and it is no larger than a power of two that the number written does not exceed.
-/
namespace TraceEngine.Binary64

open Text

variable {x : Binary64} {places n j : ℕ} {whole fraction s : List Char}

/-- The number nearest to what digits denote that have a point before the last `places` of them. -/
def denoted (places : ℕ) (text : String) : Binary64 :=
  ofDecimal (Nat.ofDigitChars 10 (text.toList.filter Char.isDigit) 0) places

/-- The digits of the text with a number of places, as one whole number. -/
def scaled (places : ℕ) (x : Binary64) : ℕ := roundHalfEven (x.units * 10 ^ places) unitsPerOne

theorem toList_fixed (hx : x.Bounded j) (hj : j < 2098) :
    (x.fixed places).toList =
      decimal (x.scaled places / 10 ^ places) ++ '.' :: paddedDecimal places (x.scaled places % 10 ^ places) := by
  have hfinite := hx.finite hj
  simp [fixed,signed,isNaN,isInfinite,hx.negative,hfinite.ne,hfinite.not_gt,scaled]

theorem denoted_fixed (hx : x.Bounded j) (hj : j < 2098) (hp : 0 < places) :
    denoted places (x.fixed places) = ofDecimal (x.scaled places) places := by
  have hwhole (c : Char) (h : c ∈ decimal (x.scaled places / 10 ^ places)) := isDigit_of_mem_decimal h
  have hfraction (c : Char) (h : c ∈ paddedDecimal places (x.scaled places % 10 ^ places)) :=
    isDigit_of_mem_paddedDecimal h
  have hdigits : (x.fixed places).toList.filter Char.isDigit =
      decimal (x.scaled places / 10 ^ places) ++ paddedDecimal places (x.scaled places % 10 ^ places) := by
    rw [toList_fixed hx hj,List.filter_append,List.filter_cons_of_neg (by decide)]
    rw [List.filter_eq_self.2 hwhole,List.filter_eq_self.2 hfraction]
  rw [denoted,hdigits,ofDigitChars_split _ hp]

theorem scaled_le (hx : x.Bounded j) (hj : 1074 ≤ j) : x.scaled places ≤ 2 ^ (j - 1074) * 10 ^ places := by
  refine roundHalfEven_le unitsPerOne_pos ?_
  rw [Nat.mul_right_comm,pow_mul_unitsPerOne,Nat.sub_add_cancel hj]
  exact Nat.mul_le_mul_right _ hx.units_le

theorem isDigit_of_char {c : Char} (h : c.isDigit = true) : isDigit c = true := by
  simp [isDigit,digit?_of_isDigit h]

theorem readMagnitude?_point (hne : whole ≠ []) (hw : ∀ c ∈ whole, c.isDigit = true)
    (hf : ∀ c ∈ fraction, c.isDigit = true) :
    readMagnitude? (whole ++ '.' :: fraction) =
      some (Nat.ofDigitChars 10 (whole ++ fraction) 0,-(fraction.length : ℤ)) := by
  have hw' (c : Char) (h : c ∈ whole) := isDigit_of_char (hw c h)
  have hf' (c : Char) (h : c ∈ fraction) := isDigit_of_char (hf c h)
  have hpoint : isDigit '.' = false := by decide
  have hrest : fraction.takeWhile isDigit = fraction ∧ fraction.dropWhile isDigit = [] :=
    ⟨List.takeWhile_eq_self_iff.2 hf',List.dropWhile_eq_nil_iff.2 hf'⟩
  simp [readMagnitude?,List.takeWhile_append_of_pos hw',List.dropWhile_append_of_pos hw',hpoint,hrest,hne,
    readExponent?,digitsValue,Nat.ofDigitChars_eq_foldl]

theorem read_of_digit {c : Char} (hc : c.isDigit = true) :
    Binary64.read (c :: s) =
      match readMagnitude? (c :: s) with
      | some (digits,exponent) => .ok (ofScientific false digits exponent)
      | none => .error .badLiteral := by
  have hminus : c ≠ '-' := by rintro rfl; simp at hc
  have hplus : c ≠ '+' := by rintro rfl; simp at hc
  have hlower : c.toLower = c := by
    have hle : c.val ≤ 57 := (Char.isDigit_iff_toNat.1 hc).2
    have hupper : ¬(65 ≤ c.val ∧ c.val ≤ 90) := fun h =>
      absurd (UInt32.le_trans h.1 hle) (by decide)
    exact dif_neg hupper
  have hi : c ≠ 'i' := by rintro rfl; simp at hc
  have hn : c ≠ 'n' := by rintro rfl; simp at hc
  cases hread : readMagnitude? (c :: s) <;> simp [Binary64.read,readUnsigned?,hlower,hi,hn,hminus,hplus,hread]

theorem ofScientific_places (hp : 0 < places) (hp' : places ≤ 400) (hn : (decimal n).length ≤ 400 + places) :
    ofScientific false n (-(places : ℤ)) = ofDecimal n places := by
  have hpos : 0 < (decimal n).length := List.length_pos_iff.2 (decimal_ne_nil n)
  have hlow : ¬(-(places : ℤ) + (decimal n).length < -400) := by omega
  have hhigh : ¬(400 < -(places : ℤ) + (decimal n).length) := by omega
  by_cases hzero : n = 0
  · simp [ofScientific,hzero,ofDecimal,ofQuotient]
  · simp [ofScientific,hzero,hlow,hhigh,hp.ne',ofDecimal]

theorem negative_ofQuotient (s : Bool) (num den : ℕ) : (ofQuotient s num den).negative = s :=
  negative_ofCode s ((Nat.min_le_left _ _).trans_lt infinityCode_lt)

theorem negative_ofScientific (s : Bool) (digits : ℕ) (exponent : ℤ) :
    (ofScientific s digits exponent).negative = s := by
  simp only [ofScientific]
  split_ifs
  · exact negative_ofCode s (by decide)
  · exact negative_ofCode s infinityCode_lt
  · exact negative_ofQuotient s _ _
  · exact negative_ofQuotient s _ _

theorem negative_of_readUnsigned? (h : readUnsigned? false s = some x) : x.negative = false := by
  simp only [readUnsigned?] at h
  split_ifs at h
  · exact Option.some.inj h ▸ negative_ofCode false infinityCode_lt
  · exact Option.some.inj h ▸ negative_ofCode false (by decide)
  · obtain ⟨⟨digits,exponent⟩,-,rfl⟩ := Option.map_eq_some_iff.1 h
    exact negative_ofScientific false digits exponent

/-- A number is negative only by a minus sign. -/
theorem negative_of_read (h : Binary64.read s = .ok x) (hs : '-' ∉ s) : x.negative = false := by
  have hfound : ∃ rest, readUnsigned? false rest = some x := by
    simp only [Binary64.read] at h
    split at h
    · contradiction
    · contradiction
    next found hne hfound =>
      rw [Except.ok.inj h] at hfound
      split at hfound
      · exact absurd (List.mem_cons_self ..) hs
      · exact ⟨_,hfound⟩
      · exact ⟨_,hfound⟩
  obtain ⟨rest,hrest⟩ := hfound
  exact negative_of_readUnsigned? hrest

theorem pow_two_lt_pow_ten {i k : ℕ} (h : i < 3 * k) : 2 ^ i < 10 ^ k :=
  calc 2 ^ i
      < 2 ^ (3 * k) := Nat.pow_lt_pow_right (by decide) h
    _ = 8 ^ k := Nat.pow_mul ..
    _ ≤ 10 ^ k := Nat.pow_le_pow_left (by decide) k

theorem scaled_lt {k : ℕ} (hx : x.Bounded j) (hj : 1074 ≤ j) (hk : j - 1074 < 3 * k) :
    x.scaled places < 10 ^ (k + places) :=
  calc x.scaled places
      ≤ 2 ^ (j - 1074) * 10 ^ places := scaled_le hx hj
    _ < 10 ^ k * 10 ^ places := Nat.mul_lt_mul_of_pos_right (pow_two_lt_pow_ten hk) (by positivity)
    _ = 10 ^ (k + places) := (Nat.pow_add ..).symm

/-- The text is read as the number nearest to what it denotes. -/
theorem read_fixed (hx : x.Bounded j) (hj : 1074 ≤ j) (hfinite : j < 2098) (hp : 0 < places) (hp' : places ≤ 400) :
    Binary64.read (x.fixed places).toList = .ok (denoted places (x.fixed places)) := by
  let n := x.scaled places
  have hwhole (c : Char) (h : c ∈ decimal (n / 10 ^ places)) := isDigit_of_mem_decimal h
  have hfraction (c : Char) (h : c ∈ paddedDecimal places (n % 10 ^ places)) := isDigit_of_mem_paddedDecimal h
  have hmagnitude := readMagnitude?_point (decimal_ne_nil (n / 10 ^ places)) hwhole hfraction
  rw [ofDigitChars_split n hp,length_paddedDecimal (Nat.mod_lt n (by positivity)) hp] at hmagnitude
  have hlen : (decimal n).length ≤ 400 + places :=
    (Nat.length_toDigits_le_iff (by decide) (by omega)).2 (scaled_lt hx hj (by omega))
  obtain ⟨c,rest,hc⟩ := List.exists_cons_of_ne_nil (decimal_ne_nil (n / 10 ^ places))
  rw [denoted_fixed hx hfinite hp,toList_fixed hx hfinite]
  change Binary64.read (decimal (n / 10 ^ places) ++ '.' :: paddedDecimal places (n % 10 ^ places)) = _
  rw [hc,List.cons_append] at hmagnitude ⊢
  rw [read_of_digit (hwhole c (by simp [hc])),hmagnitude]
  simp only [ofScientific_places hp hp' hlen,n]

theorem bounded_denoted_fixed (hx : x.Bounded j) (hj : 1074 ≤ j) (hfinite : j < 2098) (hp : 0 < places) :
    (denoted places (x.fixed places)).Bounded j := by
  have hle : x.scaled places ≤ 2 ^ (j - 1074) * 10 ^ places := scaled_le hx hj
  have h := bounded_ofDecimal hle (by omega)
  rwa [Nat.sub_add_cancel hj,← denoted_fixed hx hfinite hp] at h

def moderateUnits : ℕ := Nat.pow 10 300 * unitsPerOne

/-- Not negative, and below `10 ^ 300`, so that rounding to places cannot make it infinite. -/
@[mk_iff]
structure Moderate (x : Binary64) : Prop where
  negative : x.negative = false
  units_lt : x.units < moderateUnits

instance (x : Binary64) : Decidable x.Moderate := decidable_of_iff' _ x.moderate_iff

theorem moderateUnits_le : moderateUnits ≤ 2 ^ (997 + 1074) := by
  have hten : Nat.pow 10 300 ≤ 2 ^ 997 := by decide +kernel
  rw [← pow_mul_unitsPerOne]
  unfold moderateUnits
  revert hten
  generalize Nat.pow 10 300 = n
  exact Nat.mul_le_mul_right unitsPerOne

theorem lt_moderateUnits {i : ℕ} (h : i < 3 * 300) : 2 ^ (i + 1074) < moderateUnits := by
  rw [← pow_mul_unitsPerOne]
  unfold moderateUnits
  revert h
  generalize 300 = k
  exact fun h => Nat.mul_lt_mul_of_pos_right (pow_two_lt_pow_ten h) unitsPerOne_pos

theorem Moderate.bounded (hx : x.Moderate) : x.Bounded (997 + 1074) :=
  ⟨hx.negative,hx.units_lt.le.trans moderateUnits_le⟩

theorem Bounded.moderate {i : ℕ} (hx : x.Bounded (i + 1074)) (h : i < 3 * 300) : x.Moderate :=
  ⟨hx.negative,hx.units_le.trans_lt (lt_moderateUnits h)⟩

end TraceEngine.Binary64
