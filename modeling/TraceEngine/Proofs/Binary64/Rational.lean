import Mathlib.Algebra.Order.Field.Basic
import Mathlib.Data.Rat.Cast.Order
import Mathlib.Tactic.Linarith
import Mathlib.Tactic.Positivity
import TraceEngine.Proofs.Binary64.Exact

/-!
The rational that the bits of a finite number denote: a sign, 11 digits of exponent and 52 digits of fraction, before
which stands a one unless the exponent is zero.
-/
namespace TraceEngine.Binary64

variable {x : Binary64}

def magnitude (x : Binary64) : ℚ :=
  let exponent : ℕ := x.code / 2 ^ 52
  let fraction : ℕ := x.code % 2 ^ 52
  if exponent = 0 then fraction * 2 ^ (-1074 : ℤ) else (2 ^ 52 + fraction) * 2 ^ ((exponent : ℤ) - 1075)

def toRat (x : Binary64) : ℚ := if x.negative then -x.magnitude else x.magnitude

theorem cast_two_pow (k : ℕ) : ((Nat.pow 2 k : ℕ) : ℚ) = 2 ^ (k : ℤ) := by
  rw [Nat.pow_eq,Nat.cast_pow,Nat.cast_ofNat,zpow_natCast]

theorem unitsPerOne_cast : (unitsPerOne : ℚ) = 2 ^ (1074 : ℤ) := by
  unfold unitsPerOne
  generalize hk : 1074 = k
  have hcast : (1074 : ℤ) = k := by omega
  rw [cast_two_pow,hcast]

theorem unitsPerOne_cast_pos : (0 : ℚ) < unitsPerOne := Nat.cast_pos.2 unitsPerOne_pos

theorem magnitude_eq (x : Binary64) : x.magnitude = x.units / unitsPerOne := by
  rw [unitsPerOne_cast,div_eq_mul_inv,← zpow_neg]
  rcases Nat.lt_or_ge x.code (2 ^ 52) with hsmall | hnormal
  · have hexponent : x.code / 2 ^ 52 = 0 := Nat.div_eq_of_lt hsmall
    simp only [magnitude,hexponent,if_true,Nat.mod_eq_of_lt hsmall,units,unitsOfCode_subnormal hsmall]
  · obtain ⟨e,f,hf,hcode⟩ := exists_normal hnormal
    have hexponent : x.code / 2 ^ 52 = e + 1 := by omega
    have hfraction : x.code % 2 ^ 52 = f := by omega
    have hpower : ((e + 1 : ℕ) : ℤ) - 1075 = e + -1074 := by omega
    have hunits : x.units = (2 ^ 52 + f) * 2 ^ e := by rw [units,hcode,unitsOfCode_normal e hf]
    simp only [magnitude,hexponent,hfraction,Nat.succ_ne_zero,if_false,hunits,hpower]
    rw [zpow_add₀ two_ne_zero,zpow_natCast]
    generalize (2 : ℚ) ^ (-1074 : ℤ) = unit
    push_cast
    exact (mul_assoc _ _ _).symm

theorem magnitude_nonneg (x : Binary64) : 0 ≤ x.magnitude := by
  rw [magnitude_eq]
  positivity

theorem magnitude_le_one_iff : x.magnitude ≤ 1 ↔ x.code ≤ one.code := by
  rw [magnitude_eq,div_le_one unitsPerOne_cast_pos,Nat.cast_le,units,← unitsOfCode_one,
    unitsOfCode_strictMono.le_iff_le]

theorem code_one_lt : one.code < infinityCode := by decide

theorem isZero_iff : x.isZero = true ↔ x.magnitude = 0 := by
  have hzero : unitsOfCode 0 = 0 := by decide
  have hpos := unitsPerOne_cast_pos.ne'
  rw [magnitude_eq,div_eq_zero_iff,or_iff_left hpos,Nat.cast_eq_zero,units,← hzero,
    unitsOfCode_strictMono.injective.eq_iff,isZero,decide_eq_true_eq]

/-- The numbers from zero to one, by what they denote. -/
theorem isFraction_iff : x.isFraction = true ↔ x.code < infinityCode ∧ 0 ≤ x.toRat ∧ x.toRat ≤ 1 := by
  have hnonneg := x.magnitude_nonneg
  simp only [isFraction,Bool.or_eq_true,Bool.and_eq_true,Bool.not_eq_true',decide_eq_true_eq,
    isZero_iff,← magnitude_le_one_iff,toRat]
  have hfinite : x.magnitude ≤ 1 → x.code < infinityCode := fun h =>
    (magnitude_le_one_iff.1 h).trans_lt code_one_lt
  cases hs : x.negative with
  | true =>
    simp only [Bool.true_eq_false,false_and,or_false,if_true]
    constructor
    · intro h
      simp only [h,neg_zero,le_refl,zero_le_one,and_self,and_true]
      exact hfinite (h.trans_le zero_le_one)
    · rintro ⟨-,h,-⟩
      exact le_antisymm (neg_nonneg.1 h) hnonneg
  | false =>
    simp only [true_and,Bool.false_eq_true,if_false]
    constructor
    · rintro (h | h)
      · exact ⟨hfinite (h.trans_le zero_le_one),hnonneg,h.trans_le zero_le_one⟩
      · exact ⟨hfinite h,hnonneg,h⟩
    · rintro ⟨-,-,h⟩
      exact Or.inr h

/-- A fraction is zero if it is negative. -/
theorem toRat_of_isFraction (h : x.isFraction = true) : x.toRat = x.units / unitsPerOne := by
  have hsign := (isFraction_iff.1 h).2.1
  have hnonneg := x.magnitude_nonneg
  rw [← magnitude_eq]
  simp only [toRat] at hsign ⊢
  split_ifs at hsign ⊢
  · linarith
  · rfl

end TraceEngine.Binary64
