import Mathlib

/-! Whole numbers as floating-point numbers. A number and its double are rounded to the same digits, and differ in the
exponent alone. -/
namespace TraceEngine.Doubling

open Float.Model Float.Model.UnpackedFloat Float.Model.Format

theorem targetExponent_eq (m : ℕ) (e : ℤ) (he : -1022 ≤ e) :
    binary64.targetExponent (totalExponent m e) = m.log2 - 52 + e := by
  have hmin : binary64.minExponent = -1074 := by decide
  have hbits : (binary64.mantissaBits : ℤ) = 53 := by decide
  rw [targetExponent,totalExponent,hmin,hbits]
  omega

/-- The digits that are shifted out depend on the number of digits alone. -/
theorem shiftToTargetExponent_eq (m : ℕ) (e : ℤ) (he : -1022 ≤ e) :
    shiftToTargetExponent binary64 m e .exact =
      (ExtendedMantissa.ofMantissaAndAccuracy m .exact >>> (m.log2 - 52),e + (m.log2 - 52 : ℕ)) := by
  have hshift : (binary64.targetExponent (totalExponent m e) - e).toNat = m.log2 - 52 := by
    rw [targetExponent_eq m e he]
    omega
  rw [shiftToTargetExponent,shiftToExponent,hshift]

theorem shiftRight_succ (m : ExtendedMantissa) (n : ℕ) : m >>> (n + 1) = m.shiftRightOne >>> n := by
  change (n + 1).repeat ExtendedMantissa.shiftRightOne m = n.repeat ExtendedMantissa.shiftRightOne m.shiftRightOne
  induction n with
  | zero => rfl
  | succ n ih => rw [Nat.repeat,ih,Nat.repeat]

theorem mantissa_shiftRight (m : ExtendedMantissa) (n : ℕ) : (m >>> n).mantissa = m.mantissa / 2 ^ n := by
  induction n generalizing m with
  | zero => simp [HShiftRight.hShiftRight,Nat.repeat]
  | succ n ih => rw [shiftRight_succ,ih,ExtendedMantissa.shiftRightOne,Nat.div_div_eq_div_mul,Nat.pow_succ']

theorem roundedMantissa_bounds (m : ExtendedMantissa) :
    m.mantissa ≤ m.roundedMantissa ∧ m.roundedMantissa ≤ m.mantissa + 1 := by
  obtain ⟨k,r,s⟩ := m
  have hodd := Nat.mod_lt k (by decide : 0 < 2)
  cases r <;> cases s <;>
    simp only [ExtendedMantissa.roundedMantissa,ExtendedMantissa.accuracy,Accuracy.roundToNearestEven] <;> omega

theorem log2_div_two_pow (m k : ℕ) : (m / 2 ^ k).log2 = m.log2 - k := by
  induction k with
  | zero => simp
  | succ k ih =>
    have hdef := Nat.log2_def (m / 2 ^ k)
    rw [Nat.pow_succ,← Nat.div_div_eq_div_mul]
    split at hdef
    · omega
    · rename_i hsmall
      rw [Nat.div_eq_of_lt (Nat.not_le.1 hsmall),Nat.log2_zero]
      omega

/-- A whole number, rounded to the digits that fit. A carry may give it one digit more. -/
def rounded (m : ℕ) : ℕ := (ExtendedMantissa.ofMantissaAndAccuracy m .exact >>> (m.log2 - 52)).roundedMantissa

theorem rounded_bounds {m : ℕ} (hm : 52 ≤ m.log2) : 2 ^ 52 ≤ rounded m ∧ rounded m ≤ 2 ^ 53 := by
  obtain ⟨hlow,hhigh⟩ := roundedMantissa_bounds (ExtendedMantissa.ofMantissaAndAccuracy m .exact >>> (m.log2 - 52))
  rw [mantissa_shiftRight] at hlow hhigh
  have hlog : (m / 2 ^ (m.log2 - 52)).log2 = 52 := by
    rw [log2_div_two_pow]
    omega
  have hpositive : m / 2 ^ (m.log2 - 52) ≠ 0 := by
    intro hzero
    simp [hzero] at hlog
  obtain ⟨hleast,hmost⟩ := (Nat.log2_eq_iff hpositive).1 hlog
  exact ⟨hleast.trans hlow,hhigh.trans hmost⟩

theorem rounded_double {m : ℕ} (hm : 52 ≤ m.log2) : rounded (2 * m) = rounded m := by
  have hpositive : m ≠ 0 := by
    rintro rfl
    simp at hm
  have hdigits : (2 * m).log2 - 52 = (m.log2 - 52) + 1 := by
    rw [Nat.log2_two_mul hpositive]
    omega
  have hshift : (ExtendedMantissa.ofMantissaAndAccuracy (2 * m) .exact).shiftRightOne =
      ExtendedMantissa.ofMantissaAndAccuracy m .exact := by
    simp [ExtendedMantissa.ofMantissaAndAccuracy,ExtendedMantissa.shiftRightOne]
  rw [rounded,hdigits,shiftRight_succ,hshift,rounded]

/-- What is left of the digits after rounding, and how far they were shifted. -/
def significand (m : ℕ) : ℕ := rounded m / 2 ^ ((rounded m).log2 - 52)

def shift (m : ℕ) : ℕ := m.log2 - 52 + ((rounded m).log2 - 52)

theorem log2_significand {m : ℕ} (hm : 52 ≤ m.log2) : (significand m).log2 = 52 := by
  have hlow := (rounded_bounds hm).1
  have hlog : 52 ≤ (rounded m).log2 := (Nat.le_log2 (by omega)).2 hlow
  rw [significand,log2_div_two_pow]
  omega

theorem significand_pos {m : ℕ} (hm : 52 ≤ m.log2) : 0 < significand m := by
  have hlog := log2_significand hm
  refine Nat.pos_of_ne_zero fun hzero => ?_
  simp [hzero] at hlog

theorem shift_le {m : ℕ} (hm : 52 ≤ m.log2) : shift m ≤ m.log2 - 51 := by
  have hhigh := (rounded_bounds hm).2
  have hlog : (rounded m).log2 < 54 := (Nat.log2_lt (by have := (rounded_bounds hm).1; omega)).2 (by omega)
  rw [shift]
  omega

theorem roundWithAccuracy_eq {m : ℕ} (hm : 52 ≤ m.log2) {e : ℤ} (he : -1022 ≤ e) :
    roundWithAccuracy binary64 .positive m e .exact =
      .finite .positive (significand m) (e + shift m) (significand_pos hm) := by
  have hmantissa : ((ExtendedMantissa.ofMantissaAndAccuracy (rounded m) .exact) >>>
      ((rounded m).log2 - 52)).mantissa = significand m := mantissa_shiftRight _ _
  have hexponent : e + (m.log2 - 52 : ℕ) + ((rounded m).log2 - 52 : ℕ) = e + shift m := by
    rw [shift]
    omega
  have hrounded : (ExtendedMantissa.ofMantissaAndAccuracy m .exact >>> (m.log2 - 52)).roundedMantissa = rounded m := rfl
  have hagain := shiftToTargetExponent_eq (rounded m) (e + (m.log2 - 52 : ℕ)) (by omega)
  simp only [roundWithAccuracy,shiftToTargetExponent_eq m e he,hrounded,hagain,hmantissa,hexponent]
  exact dif_neg (significand_pos hm).ne'

/-- Doubled numbers keep their digits. -/
theorem roundWithAccuracy_double {m : ℕ} (hm : 52 ≤ m.log2) {e : ℤ} (he : -1022 ≤ e) :
    roundWithAccuracy binary64 .positive (2 * m) e .exact = roundWithAccuracy binary64 .positive m (e + 1) .exact := by
  have hpositive : m ≠ 0 := by
    rintro rfl
    simp at hm
  have hlog := Nat.log2_two_mul hpositive
  have hshift : e + shift (2 * m) = e + 1 + shift m := by
    rw [shift,shift,rounded_double hm,hlog]
    omega
  have hsame : significand (2 * m) = significand m := by rw [significand,significand,rounded_double hm]
  rw [roundWithAccuracy_eq hm (by omega),roundWithAccuracy_eq (by omega) he]
  simp only [hsame,hshift]

/-- A whole number with as many digits as fit, at least, and the exponent for it. -/
def filled (n : ℕ) : ℕ := n <<< (52 - n.log2)

theorem log2_filled {n : ℕ} (hn : 0 < n) : (filled n).log2 = n.log2 + (52 - n.log2) := by
  obtain ⟨hleast,hmost⟩ := (Nat.log2_eq_iff hn.ne').1 rfl
  have hpositive : 0 < 2 ^ (52 - n.log2) := Nat.two_pow_pos _
  rw [filled,Nat.log2_eq_iff (Nat.shiftLeft_pos_iff.2 hn).ne',Nat.shiftLeft_eq]
  constructor
  · rw [Nat.pow_add]
    exact Nat.mul_le_mul_right _ hleast
  · rw [Nat.add_right_comm,Nat.pow_add]
    exact Nat.mul_lt_mul_of_pos_right hmost hpositive

theorem le_log2_filled {n : ℕ} (hn : 0 < n) : 52 ≤ (filled n).log2 := by
  rw [log2_filled hn]
  omega

theorem round_eq (n : ℕ) :
    UnpackedFloat.round binary64 .positive n 0 =
      roundWithAccuracy binary64 .positive (filled n) (-(52 - n.log2 : ℕ)) .exact := by
  have hshift : (0 - ((n.log2 : ℤ) - 52 + 0)).toNat = 52 - n.log2 := by omega
  have hexponent : (0 - (52 - n.log2 : ℕ) : ℤ) = -(52 - n.log2 : ℕ) := by omega
  rw [UnpackedFloat.round,targetExponent_eq n 0 (by decide)]
  simp only [decreaseExponent,hshift,hexponent,filled]

theorem round_double {n : ℕ} (hn : 0 < n) :
    UnpackedFloat.round binary64 .positive (2 * n) 0 =
      roundWithAccuracy binary64 .positive (filled n) (-(52 - n.log2 : ℕ) + 1) .exact := by
  have hlog := Nat.log2_two_mul hn.ne'
  rw [round_eq,hlog]
  rcases Nat.lt_or_ge n.log2 52 with hfew | hmany
  · have hfilled : filled (2 * n) = filled n := by
      have hdigits : 52 - n.log2 = 52 - (n.log2 + 1) + 1 := by omega
      rw [filled,filled,hlog,Nat.shiftLeft_eq,Nat.shiftLeft_eq,hdigits,Nat.pow_succ]
      ring
    have hexponent : (-(52 - (n.log2 + 1) : ℕ) : ℤ) = -(52 - n.log2 : ℕ) + 1 := by omega
    rw [hfilled,hexponent]
  · have hfilled : filled (2 * n) = 2 * filled n := by
      have hnone : 52 - (2 * n).log2 = 0 := by omega
      have hnone' : 52 - n.log2 = 0 := by omega
      rw [filled,filled,hnone,hnone',Nat.shiftLeft_zero,Nat.shiftLeft_zero]
    have hexponent : (-(52 - (n.log2 + 1) : ℕ) : ℤ) = -(52 - n.log2 : ℕ) := by omega
    rw [hfilled,hexponent,roundWithAccuracy_double (le_log2_filled hn) (by omega)]

theorem append_implicit (k : BitVec 52) : (1#1 ++ k).toNat = 2 ^ 52 + k.toNat := by
  rw [BitVec.toNat_append,← Nat.shiftLeft_add_eq_or_of_lt k.isLt]
  rfl

theorem pack_eq {k : ℕ} {e : ℤ} (hk : 0 < k) (hlog : k.log2 = 52) (hhigh : e ≤ 971) :
    UnpackedFloat.pack binary64 (.finite .positive k e hk) =
      packComponents binary64 .positive (BitVec.ofNat 11 (e + 1075).toNat) (BitVec.ofNat 52 k) := by
  have hbiased : (e + binary64.exponentBias + (52 : ℕ)).toNat = (e + 1075).toNat := by
    have hbias : binary64.exponentBias = 1023 := by decide
    rw [hbias]
    omega
  have hfits : ¬2 ^ 11 ≤ (e + 1075).toNat + 1 := by omega
  have hnormal : k.log2 + 1 = binary64.mantissaBits := by
    rw [hlog]
    rfl
  simp only [UnpackedFloat.pack,hnormal,if_true]
  rw [hbiased,if_neg hfits]

/-- A number with all its digits is packed without loss, if its exponent fits. -/
theorem unpack_pack {k : ℕ} {e : ℤ} (hk : 0 < k) (hlog : k.log2 = 52) (hlow : -1074 ≤ e) (hhigh : e ≤ 971) :
    (Float.Model.pack (.finite .positive k e hk)).unpack = .finite .positive k e hk := by
  obtain ⟨hleast,hmost⟩ := (Nat.log2_eq_iff hk.ne').1 hlog
  have hexponent : (BitVec.ofNat 11 (e + 1075).toNat).toNat = (e + 1075).toNat := by
    rw [BitVec.toNat_ofNat,Nat.mod_eq_of_lt (by omega)]
  have hne {v : BitVec 11} (hv : (e + 1075).toNat ≠ v.toNat) : BitVec.ofNat 11 (e + 1075).toNat ≠ v :=
    fun h => hv (hexponent.symm.trans (congrArg BitVec.toNat h))
  have hones : BitVec.ofNat 11 (e + 1075).toNat ≠ -1#11 := hne (show (e + 1075).toNat ≠ 2047 by omega)
  have hzero : BitVec.ofNat 11 (e + 1075).toNat ≠ 0#11 := hne (show (e + 1075).toNat ≠ 0 by omega)
  have hmantissa : (1#1 ++ BitVec.ofNat 52 k).toNat = k := by
    rw [append_implicit,BitVec.toNat_ofNat]
    omega
  change UnpackedFloat.unpack binary64 (UnpackedFloat.pack binary64 _) = _
  rw [pack_eq hk hlog hhigh,UnpackedFloat.unpack]
  simp only [unpackMantissa_packComponents,unpackExponent_packComponents,unpackSign_packComponents,
    Sign.ofBitVec_toBitVec,hones,hzero,if_false,hmantissa,hexponent]
  congr 1
  have hbias : binary64.exponentBias = 1023 := by decide
  rw [hbias]
  omega

theorem unpack_roundWithAccuracy {m : ℕ} (hm : 52 ≤ m.log2) {e : ℤ} (he : -1022 ≤ e) (hhigh : e + m.log2 ≤ 1022) :
    (Float.Model.pack (roundWithAccuracy binary64 .positive m e .exact)).unpack =
      .finite .positive (significand m) (e + shift m) (significand_pos hm) := by
  have hshift := shift_le hm
  rw [roundWithAccuracy_eq hm he]
  exact unpack_pack _ (log2_significand hm) (by omega) (by omega)

theorem ofNat_eq {n : ℕ} (hn : 0 < n) :
    Float.Model.ofNat n = .pack (UnpackedFloat.round binary64 .positive n 0) := by
  have hcompare : compare (n : ℤ) 0 = .gt := Int.compare_eq_gt.2 (by omega)
  rw [Float.Model.ofNat,UnpackedFloat.ofNat,UnpackedFloat.ofInt,UnpackedFloat.normalize,hcompare]
  rfl

section WholeNumber

variable {n : ℕ} (hn : 0 < n)

theorem unpack_ofNat (hfew : n < 2 ^ 64) : (Float.Model.ofNat n).unpack =
    .finite .positive (significand (filled n)) (-(52 - n.log2 : ℕ) + shift (filled n))
      (significand_pos (le_log2_filled hn)) := by
  have hlog : n.log2 < 64 := (Nat.log2_lt hn.ne').2 hfew
  have hfilled := log2_filled hn
  rw [ofNat_eq hn,round_eq]
  exact unpack_roundWithAccuracy (le_log2_filled hn) (by omega) (by omega)

/-- A number and its double have the same digits. -/
theorem unpack_ofNat_double (hfew : 2 * n < 2 ^ 64) : (Float.Model.ofNat (2 * n)).unpack =
    .finite .positive (significand (filled n)) (-(52 - n.log2 : ℕ) + shift (filled n) + 1)
      (significand_pos (le_log2_filled hn)) := by
  have hlog : n.log2 < 63 := (Nat.log2_lt hn.ne').2 (by omega)
  have hfilled := log2_filled hn
  rw [ofNat_eq (by omega),round_double hn,add_right_comm]
  exact unpack_roundWithAccuracy (le_log2_filled hn) (by omega) (by omega)

end WholeNumber

theorem toFloat_toUInt64 {n : ℕ} (hfew : n < 2 ^ 64) : n.toUInt64.toFloat = .ofModel (.ofNat n) := by
  have hvalue : n.toUInt64.toNat = n := Nat.mod_eq_of_lt hfew
  change Float.ofModel (.ofNat n.toUInt64.toNat) = _
  rw [hvalue]

end TraceEngine.Doubling
