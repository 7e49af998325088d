import Mathlib.Data.Nat.Log
import Mathlib.Tactic.Positivity
import TraceEngine.Binary64.Arithmetic

/-!
How large a number can become. A quotient of at most a power of two units is rounded to a number of at most that
many units, because powers of two are numbers themselves; from that follows that numbers well below the largest
one stay finite when they are scaled, rounded to places and scaled back.
-/
namespace TraceEngine.Binary64

variable {num den k j code : ℕ} {x : Binary64}

theorem code_ofCode (s : Bool) (h : code < 2 ^ 63) : (ofCode s code).code = code := by
  cases s <;> simp [ofCode,Binary64.code] <;> omega

theorem negative_ofCode (s : Bool) (h : code < 2 ^ 63) : (ofCode s code).negative = s := by
  cases s <;> simp [ofCode,negative,BitVec.msb_eq_decide] <;> omega

/-- The code of `2 ^ j` units, from the least normal number upwards. -/
def powerCode (j : ℕ) : ℕ := (j - 51) * 2 ^ 52

theorem powerCode_lt (h : j < 2098) : powerCode j < infinityCode := by
  simp [powerCode,infinityCode]
  omega

theorem infinityCode_lt : infinityCode < 2 ^ 63 := by decide

theorem roundHalfEven_le (hden : 0 < den) (h : num ≤ k * den) : roundHalfEven num den ≤ k := by
  have hq : num / den ≤ k := Nat.div_le_of_le_mul (by rwa [Nat.mul_comm])
  have hparts := Nat.div_add_mod num den
  by_cases hk : num / den = k
  · have hr : num % den = 0 := by
      rw [hk,Nat.mul_comm] at hparts
      omega
    simp [roundHalfEven,hr,hden,hk]
  · simp only [roundHalfEven]
    split_ifs <;> omega

@[simp] theorem roundHalfEven_zero (den : ℕ) : roundHalfEven 0 den = 0 := by
  simp [roundHalfEven]

@[simp] theorem codeOfQuotient_zero (den : ℕ) : codeOfQuotient 0 den = 0 := by
  simp [codeOfQuotient]

/-- Rounding does not pass a power of two: below it the significand stays under `2 ^ 53`, and a quotient with as
many binary digits as the power has the significand `2 ^ 52` at most. -/
theorem codeOfQuotient_le (hden : 0 < den) (hj : 52 ≤ j) (h : num ≤ 2 ^ j * den) :
    codeOfQuotient num den ≤ powerCode j := by
  have hq : num / den ≤ 2 ^ j := Nat.div_le_of_le_mul (by rwa [Nat.mul_comm])
  have hlog : Nat.log2 (num / den) ≤ j := by
    simpa [Nat.log2_eq_log_two] using Nat.log_mono_right (b := 2) hq
  let d := Nat.log2 (num / den) - 52
  have hcode : codeOfQuotient num den ≤ d * 2 ^ 52 + roundHalfEven num (den * 2 ^ d) := Nat.min_le_right _ _
  have hscaled : 0 < den * 2 ^ d := by positivity
  by_cases hd : d = j - 52
  · have hround : roundHalfEven num (den * 2 ^ d) ≤ 2 ^ 52 := by
      refine roundHalfEven_le hscaled (h.trans_eq ?_)
      rw [Nat.mul_left_comm,← Nat.pow_add,hd,Nat.add_sub_cancel' hj,Nat.mul_comm]
    calc codeOfQuotient num den
        ≤ d * 2 ^ 52 + 2 ^ 52 := hcode.trans (Nat.add_le_add_left hround _)
      _ = (d + 1) * 2 ^ 52 := (Nat.succ_mul ..).symm
      _ ≤ powerCode j := Nat.mul_le_mul_right _ (by omega)
  · have hbits : num / den < 2 ^ (53 + d) :=
      Nat.lt_log2_self.trans_le (Nat.pow_le_pow_right (by decide) (by omega))
    have hround : roundHalfEven num (den * 2 ^ d) ≤ 2 ^ 53 := by
      refine roundHalfEven_le hscaled ?_
      rw [Nat.mul_left_comm,← Nat.pow_add,Nat.mul_comm]
      exact ((Nat.div_lt_iff_lt_mul hden).1 hbits).le
    calc codeOfQuotient num den
        ≤ d * 2 ^ 52 + 2 * 2 ^ 52 := hcode.trans (Nat.add_le_add_left hround _)
      _ = (d + 2) * 2 ^ 52 := (Nat.add_mul ..).symm
      _ ≤ powerCode j := Nat.mul_le_mul_right _ (by omega)

theorem unitsOfCode_le (hj : 52 ≤ j) (h : code ≤ powerCode j) : unitsOfCode code ≤ 2 ^ j := by
  simp only [powerCode] at h
  simp only [unitsOfCode]
  split_ifs with hsmall
  · exact hsmall.le.trans (Nat.pow_le_pow_right (by decide) hj)
  · let e := code / 2 ^ 52
    have hparts : 2 ^ 52 * e + code % 2 ^ 52 = code := Nat.div_add_mod code (2 ^ 52)
    have hfraction : code % 2 ^ 52 < 2 ^ 52 := Nat.mod_lt _ (by positivity)
    have hnormal : 2 ^ 52 ≤ code := not_lt.1 hsmall
    change (2 ^ 52 + code % 2 ^ 52) * 2 ^ (e - 1) ≤ 2 ^ j
    by_cases he : e = j - 51
    · have hzero : code % 2 ^ 52 = 0 := by
        rw [he] at hparts
        omega
      rw [hzero,Nat.add_zero,← Nat.pow_add]
      exact Nat.pow_le_pow_right (by decide) (by omega)
    · calc (2 ^ 52 + code % 2 ^ 52) * 2 ^ (e - 1)
          ≤ 2 ^ 53 * 2 ^ (e - 1) := Nat.mul_le_mul_right _ (by omega)
        _ = 2 ^ (53 + (e - 1)) := (Nat.pow_add ..).symm
        _ ≤ 2 ^ j := Nat.pow_le_pow_right (by decide) (by omega)

/-- Not negative, and of at most `2 ^ j` units. -/
structure Bounded (j : ℕ) (x : Binary64) : Prop where
  negative : x.negative = false
  units_le : x.units ≤ 2 ^ j

theorem le_unitsOfCode {e : ℕ} (h : (e + 1) * 2 ^ 52 ≤ code) : 2 ^ (52 + e) ≤ unitsOfCode code := by
  have he : e + 1 ≤ code / 2 ^ 52 := (Nat.le_div_iff_mul_le (by positivity)).2 h
  have hnormal : ¬code < Nat.pow 2 52 := not_lt.2 ((Nat.le_mul_of_pos_left _ e.succ_pos).trans h)
  rw [unitsOfCode,if_neg hnormal,Nat.pow_add]
  exact Nat.mul_le_mul (Nat.le_add_right _ _) (Nat.pow_le_pow_right (by decide) (Nat.le_sub_one_of_lt he))

theorem Bounded.finite (hx : x.Bounded j) (hj : j < 2098) : x.code < infinityCode := by
  by_contra hinfinite
  have hlarge := (le_unitsOfCode (not_lt.1 hinfinite)).trans hx.units_le
  exact absurd ((Nat.pow_le_pow_iff_right (by decide)).1 hlarge) (by omega)

theorem bounded_ofCode (hden : 0 < den) (hj : 52 ≤ j) (hfinite : j < 2098) (h : num ≤ 2 ^ j * den) :
    (ofCode false (codeOfQuotient num den)).Bounded j := by
  have hcode := codeOfQuotient_le hden hj h
  have hlt : codeOfQuotient num den < 2 ^ 63 := hcode.trans_lt ((powerCode_lt hfinite).trans infinityCode_lt)
  constructor
  · exact negative_ofCode false hlt
  · simpa [units,code_ofCode false hlt] using unitsOfCode_le hj hcode

theorem Bounded.mapUnits {f : ℕ → ℕ} {i : ℕ} (hx : x.Bounded i) (hi : i < 2098) (hden : 0 < den) (hj : 52 ≤ j)
    (hfinite : j < 2098) (h : f x.units ≤ 2 ^ j * den) : (x.mapUnits f den).Bounded j := by
  simp only [Binary64.mapUnits,if_neg (hx.finite hi).not_ge,hx.negative]
  exact bounded_ofCode hden hj hfinite h

-- The exponent is generalized, since a power with it is too large to be computed.
theorem unitsPerOne_pos : 0 < unitsPerOne := by
  unfold unitsPerOne
  generalize 1074 = k
  exact Nat.two_pow_pos k

theorem pow_mul_unitsPerOne (i : ℕ) : 2 ^ i * unitsPerOne = 2 ^ (i + 1074) := by
  unfold unitsPerOne
  generalize 1074 = k
  exact (Nat.pow_add ..).symm

/-- Scaling by a power of ten takes four binary digits for each decimal one. -/
theorem Bounded.mulNat {places : ℕ} (hx : x.Bounded j) (hj : 52 ≤ j) (hfinite : j + 4 * places < 2098) :
    (x.mulNat (10 ^ places)).Bounded (j + 4 * places) := by
  refine hx.mapUnits (by omega) (by decide) (by omega) hfinite ?_
  calc x.units * 10 ^ places
      ≤ 2 ^ j * 16 ^ places := Nat.mul_le_mul hx.units_le (Nat.pow_le_pow_left (by decide) _)
    _ = 2 ^ (j + 4 * places) * 1 := by rw [show 16 = 2 ^ 4 from rfl,← Nat.pow_mul,← Nat.pow_add,Nat.mul_one]

/-- The whole numbers nearest to numbers below a power of two that is whole are not above it either. -/
theorem Bounded.round (hx : x.Bounded j) (hj : 1074 ≤ j) (hfinite : j < 2098) : x.round.Bounded j := by
  refine hx.mapUnits hfinite (by decide) (by omega) hfinite ?_
  have hsplit : 2 ^ (j - 1074) * unitsPerOne = 2 ^ j := by
    rw [pow_mul_unitsPerOne,Nat.sub_add_cancel hj]
  have hhalf : unitsPerOne / 2 < unitsPerOne := Nat.div_lt_self unitsPerOne_pos (by decide)
  rw [Nat.mul_one,← hsplit]
  refine Nat.mul_le_mul_right _ (Nat.lt_succ_iff.1 ((Nat.div_lt_iff_lt_mul unitsPerOne_pos).2 ?_))
  rw [Nat.succ_mul,hsplit]
  exact Nat.add_lt_add_of_le_of_lt hx.units_le hhalf

theorem Bounded.divNat (hx : x.Bounded j) (hj : 52 ≤ j) (hfinite : j < 2098) {n : ℕ} (hn : 0 < n) :
    (x.divNat n).Bounded j :=
  hx.mapUnits hfinite hn hj hfinite (hx.units_le.trans (Nat.le_mul_of_pos_right _ hn))

theorem Bounded.roundPlaces {places : ℕ} (hx : x.Bounded j) (hj : 1074 ≤ j) (hfinite : j + 4 * places < 2098) :
    (x.roundPlaces places).Bounded (j + 4 * places) :=
  ((hx.mulNat (by omega) hfinite).round (by omega) hfinite).divNat (by omega) hfinite (Nat.pow_pos (by decide))

theorem bounded_ofDecimal {n places i : ℕ} (h : n ≤ 2 ^ i * 10 ^ places) (hi : i < 1024) :
    (ofDecimal n places).Bounded (i + 1074) := by
  refine bounded_ofCode (Nat.pow_pos (by decide)) (by omega) (by omega) ?_
  calc n * unitsPerOne
      ≤ 2 ^ i * 10 ^ places * unitsPerOne := Nat.mul_le_mul_right _ h
    _ = 2 ^ (i + 1074) * 10 ^ places := by rw [Nat.mul_right_comm,pow_mul_unitsPerOne]

end TraceEngine.Binary64
