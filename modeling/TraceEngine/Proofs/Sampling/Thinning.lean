import TraceEngine.Proofs.Sampling.Doubling
import TraceEngine.Sampling.Adaptive

/-! The exponential fall of the chance ends at twice the target. The exponent there is a half exactly, so the threshold
is a number less itself, and nothing that is drawn is below it. -/
namespace TraceEngine.Thinning

open Doubling Float.Model Float.Model.UnpackedFloat Float.Model.Format

theorem div_double {k : ℕ} {e : ℤ} (hk : 0 < k) :
    UnpackedFloat.div binary64 (.finite .positive k e hk) (.finite .positive k (e + 1) hk) =
      .finite .positive (2 ^ 52) (-53) (by decide) := by
  have htarget : min (e - (e + 1)) (binary64.targetExponent (totalExponent k e - totalExponent k (e + 1))) = -54 := by
    have hmin : binary64.minExponent = -1074 := by decide
    have hbits : (binary64.mantissaBits : ℤ) = 53 := by decide
    rw [targetExponent,totalExponent,totalExponent,hmin,hbits]
    omega
  have hshift : (e - (e + 1) - -54).toNat = 53 := by omega
  have hquotient : k <<< 53 / k = 2 ^ 53 := by rw [Nat.shiftLeft_eq,Nat.mul_div_cancel_left _ hk]
  have hrest : k <<< 53 % k = 0 := by rw [Nat.shiftLeft_eq,Nat.mul_mod_right]
  simp only [UnpackedFloat.div,divCore,htarget,hshift,hquotient,hrest,accuracyOfFraction,if_true]
  rfl

theorem toFloat_div_double {n : ℕ} (hn : 0 < n) (hfew : 2 * n < 2 ^ 64) :
    n.toUInt64.toFloat / (2 * n).toUInt64.toFloat = 0.5 := by
  rw [toFloat_toUInt64 (by omega),toFloat_toUInt64 hfew]
  change Float.ofModel (.pack (.div binary64 (Float.Model.ofNat n).unpack (Float.Model.ofNat (2 * n)).unpack)) = _
  rw [unpack_ofNat hn (by omega),unpack_ofNat_double hn hfew,div_double]
  rfl

theorem sub_self_cases (x : UnpackedFloat) :
    UnpackedFloat.sub binary64 x x = .zero .positive ∨ UnpackedFloat.sub binary64 x x = .notANumber := by
  cases x with
  | notANumber => exact .inr rfl
  | infinity sign => cases sign <;> exact .inr rfl
  | zero sign => cases sign <;> exact .inl rfl
  | finite sign k e hk =>
    refine .inl ?_
    simp only [UnpackedFloat.sub,Int.sub_self,UnpackedFloat.normalize]
    rfl

theorem compare_ofNat_zero (n : ℕ) (hfew : n < 2 ^ 64) :
    (Float.Model.ofNat n).unpack.compare (.zero .positive) ≠ some .lt := by
  rcases Nat.eq_zero_or_pos n with rfl | hn
  · decide
  · rw [unpack_ofNat hn hfew]
    simp [UnpackedFloat.compare]

/-- A number less itself is zero or no number, and no whole number is below either. -/
theorem not_lt_sub_self (d : UInt64) (x : Float) : ¬d.toFloat < x - x := by
  have hlt : (Float.Model.ofNat d.toNat).unpack.lt
      (Float.Model.pack (.sub binary64 x.toModel.unpack x.toModel.unpack)).unpack = false := by
    rcases sub_self_cases x.toModel.unpack with hzero | hnone
    · rw [hzero]
      exact beq_false_of_ne (compare_ofNat_zero d.toNat d.toNat_lt)
    · rw [hnone]
      change ((Float.Model.ofNat d.toNat).unpack.compare .notANumber == some .lt) = false
      cases (Float.Model.ofNat d.toNat).unpack <;> rfl
  change ¬decide ((Float.Model.ofNat d.toNat).unpack.lt
    (Float.Model.pack (.sub binary64 x.toModel.unpack x.toModel.unpack)).unpack = true) = true
  simp [hlt]

theorem exponential_double {target : ℕ} (hpos : 0 < target) (hfew : 2 * target < 2 ^ 64) (drawn : ℕ) :
    exponential target (2 * target) drawn = false := by
  rw [exponential,toFloat_div_double hpos hfew]
  exact decide_eq_false (not_lt_sub_self _ _)

end TraceEngine.Thinning
