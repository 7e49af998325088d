import Mathlib.Tactic.NormNum
import TraceEngine.Proofs.Binary64.Rational
import TraceEngine.Sampling.Ratio

/-!
The share of trace ids that a ratio keeps. The bound is computed in floating point, but without rounding: scaling by a
power of two is exact, and so is the step to a whole number, since what is not whole yet lies below `2 ^ 52`. Thus an
id is kept if and only if its lower half lies below the exact share of `2 ^ 64`.
-/
namespace TraceEngine

namespace Binary64

theorem exactly_ofNat_largest : (ofNat (Nat.pow 2 64 - 1)).Exactly (2 ^ 64 * unitsPerOne) where
  negative := by decide +kernel
  finite := by decide +kernel
  units := by decide +kernel

theorem isFraction_cases {x : Binary64} (h : x.isFraction = true) :
    x = ofCode true 0 ∨ x.Exactly x.units ∧ x.units ≤ unitsPerOne := by
  have hcode : x.code ≤ one.code := by
    simp only [isFraction,isZero,Bool.or_eq_true,Bool.and_eq_true,decide_eq_true_eq] at h
    rcases h with h | h
    · exact h ▸ Nat.zero_le _
    · exact h.2
  cases hs : x.negative with
  | false =>
    refine Or.inr ⟨⟨hs,hcode.trans_lt code_one_lt,rfl⟩,?_⟩
    rw [← unitsOfCode_one]
    exact unitsOfCode_strictMono.monotone hcode
  | true =>
    have hzero : x.code = 0 := by simpa [isFraction,isZero,hs] using h
    left
    obtain ⟨bits⟩ := x
    simp only [negative,BitVec.msb_eq_decide,decide_eq_true_eq,code,Nat.pow_eq] at hs hzero
    have hbits : bits.toNat = 2 ^ 63 := by omega
    rw [ofCode,Binary64.mk.injEq,← BitVec.toNat_inj,hbits]
    rfl

end Binary64

theorem TraceId.lowerHalf_lt (id : TraceId) : id.lowerHalf < 2 ^ 64 := Nat.mod_lt _ (by decide)

namespace RatioSampler

open Binary64

variable (r : RatioSampler) (id : TraceId)

/-- Nothing is rounded on the way to the bound; only its 64 bits cut it off. -/
theorem bound_eq : r.bound = min (r.ratio.ceilScaled 64) (2 ^ 64 - 1) := by
  rw [bound]
  rcases isFraction_cases r.isFraction with hzero | ⟨hx,hle⟩
  · rw [hzero]
    decide +kernel
  · have hlt : r.ratio.units * 2 ^ 64 < unitsOfCode infinityCode := by
      refine (Nat.mul_le_mul_right _ hle).trans_lt ?_
      rw [Nat.mul_comm]
      exact two_pow_mul_unitsPerOne_lt (by decide)
    exact (hx.mul_pow exactly_ofNat_largest hlt).ceil.toNatural 64

theorem ceilScaled_of_isAtLeastOne (h : r.ratio.isAtLeastOne = true) : r.ratio.ceilScaled 64 = 2 ^ 64 := by
  simp only [isAtLeastOne,Bool.and_eq_true,Bool.not_eq_true',decide_eq_true_eq] at h
  rcases isFraction_cases r.isFraction with hzero | ⟨-,hle⟩
  · rw [hzero] at h
    exact absurd h.1 (by decide)
  · have hge : unitsPerOne ≤ r.ratio.units := unitsOfCode_one ▸ unitsOfCode_strictMono.monotone h.2.1
    rw [ceilScaled_eq,le_antisymm hle hge,Nat.mul_comm,onesAbove_mul]

/-- Below one the bound is not cut off, for the share of a number next to one is whole. -/
theorem ceilScaled_lt (h : r.ratio.isAtLeastOne = false) : r.ratio.ceilScaled 64 < 2 ^ 64 := by
  rcases isFraction_cases r.isFraction with hzero | ⟨hx,-⟩
  · rw [hzero]
    decide +kernel
  · have hcode : r.ratio.code < one.code := by
      have hfinite := hx.finite
      simp only [isAtLeastOne,hx.negative,Bool.not_false,Bool.true_and,decide_eq_false_iff_not] at h
      omega
    have hlt : r.ratio.units < unitsPerOne := unitsOfCode_one ▸ unitsOfCode_strictMono hcode
    have hscaled : r.ratio.units * 2 ^ 64 < 2 ^ 64 * unitsPerOne := by
      rw [Nat.mul_comm (2 ^ 64)]
      exact Nat.mul_lt_mul_of_pos_right hlt (by positivity)
    have hrep := hx.representable.mul_pow (hscaled.trans (two_pow_mul_unitsPerOne_lt (by decide)))
    exact hrep.onesAbove_lt (by decide) hscaled

theorem ratio_of_of? {x : Binary64} {r : RatioSampler} (h : of? x = some r) : r.ratio = x := by
  unfold of? at h
  split at h
  · rw [← Option.some.inj h]
  · contradiction

theorem keeps_eq : r.keeps id = decide (id.lowerHalf < r.ratio.ceilScaled 64) := by
  rw [keeps,bound_eq]
  cases h : r.ratio.isAtLeastOne with
  | true =>
    have hlt := id.lowerHalf_lt
    rw [r.ceilScaled_of_isAtLeastOne h,decide_eq_true hlt,Bool.true_or]
  | false =>
    have hlt := r.ceilScaled_lt h
    rw [Nat.min_eq_left (by omega),Bool.false_or]

theorem keeps_iff : r.keeps id = true ↔ (id.lowerHalf : ℚ) < r.ratio.toRat * 2 ^ 64 := by
  have hpos := unitsPerOne_cast_pos
  rw [keeps_eq,decide_eq_true_eq,toRat_of_isFraction r.isFraction,ceilScaled_eq,lt_onesAbove_iff,
    div_mul_eq_mul_div,lt_div_iff₀ hpos,← Nat.cast_lt (α := ℚ)]
  push_cast
  rfl

/-- Every number from zero to one makes a sampler, and its share of the traces is exact: an id is kept if its lower half
is less than the ratio of `2 ^ 64`. So all are kept with one and none with zero, a larger ratio keeps what a smaller one
keeps, and the upper half does not count. -/
theorem keeps_share {x : Binary64} (hfinite : x.code < infinityCode) (h0 : 0 ≤ x.toRat) (h1 : x.toRat ≤ 1) :
    ∃ r, of? x = some r ∧ ∀ id : TraceId,
      (r.keeps id = true ↔ (id.lowerHalf : ℚ) < x.toRat * 2 ^ 64) ∧
      (x.toRat = 1 → r.keeps id = true) ∧ (x.toRat = 0 → r.keeps id = false) ∧
      (∀ y q, of? y = some q → x.toRat ≤ y.toRat → r.keeps id = true → q.keeps id = true) ∧
      ∀ id' : TraceId, id'.lowerHalf = id.lowerHalf → r.keeps id' = r.keeps id := by
  have hfraction : x.isFraction = true := isFraction_iff.2 ⟨hfinite,h0,h1⟩
  refine ⟨⟨x,hfraction⟩,dif_pos hfraction,fun id => ?_⟩
  have hkeeps (q : RatioSampler) := q.keeps_iff id
  have hlt : (id.lowerHalf : ℚ) < 2 ^ 64 := mod_cast id.lowerHalf_lt
  refine ⟨hkeeps _,fun hone => ?_,fun hzero => ?_,fun y q hq hle h => ?_,fun id' hid => ?_⟩
  · rwa [hkeeps,hone,one_mul]
  · rw [Bool.eq_false_iff,ne_eq,hkeeps,hzero,zero_mul,not_lt]
    exact Nat.cast_nonneg _
  · have hratio : q.ratio = y := ratio_of_of? hq
    rw [hkeeps] at h ⊢
    rw [hratio]
    exact h.trans_le (mul_le_mul_of_nonneg_right hle (by positivity))
  · rw [keeps_eq,keeps_eq,hid]

/-- The largest number below one. -/
def belowOne : Binary64 := ofCode false (one.code - 1)

theorem keeps_share_belowOne :
    belowOne.code < infinityCode ∧ 0 ≤ belowOne.toRat ∧ belowOne.toRat ≤ 1 ∧ belowOne.toRat = 1 - 1 / 2 ^ 53 ∧
      ∃ r, of? belowOne = some r ∧ ∀ id : TraceId, r.keeps id = true ↔ id.lowerHalf < 2 ^ 64 - 2 ^ 11 := by
  obtain ⟨hfinite,h0,h1⟩ := isFraction_iff.1 (show belowOne.isFraction = true by decide)
  have hvalue : belowOne.toRat = 1 - 1 / 2 ^ 53 := by
    have hcode : belowOne.code = 1022 * 2 ^ 52 + (2 ^ 52 - 1) := by decide
    have hsign : belowOne.negative = false := by decide
    norm_num [toRat,magnitude,hcode,hsign]
  obtain ⟨r,hr,h⟩ := keeps_share hfinite h0 h1
  refine ⟨hfinite,h0,h1,hvalue,r,hr,fun id => (h id).1.trans ?_⟩
  rw [hvalue,← Nat.cast_lt (α := ℚ)]
  norm_num

end RatioSampler

end TraceEngine
