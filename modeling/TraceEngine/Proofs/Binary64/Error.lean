import Mathlib.Data.Nat.Cast.Order.Field
import Mathlib.Tactic.FieldSimp
import Mathlib.Tactic.NormNum
import Mathlib.Tactic.Ring
import TraceEngine.Proofs.Binary64.Decimal
import TraceEngine.Proofs.Binary64.Rational

/-!
How far a rounded number is from what it stands for. One rounding adds an error of at most a part of `2 ^ 53`, and half
a unit below the normal numbers.
-/
namespace TraceEngine.Binary64

variable {x : Binary64} {num den m d k places : ℕ}

theorem roundHalfEven_cases (num den : ℕ) :
    (2 * (num % den) ≤ den ∧ roundHalfEven num den = num / den) ∨
      (den ≤ 2 * (num % den) ∧ roundHalfEven num den = num / den + 1) := by
  simp only [roundHalfEven]
  split_ifs with hbelow habove
  · exact Or.inl ⟨hbelow.le,rfl⟩
  · exact Or.inr ⟨habove.le,rfl⟩
  · rcases Nat.mod_two_eq_zero_or_one (num / den) with h | h
    · exact Or.inl ⟨not_lt.1 habove,by omega⟩
    · exact Or.inr ⟨not_lt.1 hbelow,by omega⟩

theorem error_roundHalfEven (hden : 0 < den) : |(roundHalfEven num den : ℚ) - num / den| ≤ 1 / 2 := by
  have hpos : (0 : ℚ) < den := Nat.cast_pos.2 hden
  have hparts : (num : ℚ) = den * (num / den : ℕ) + (num % den : ℕ) := mod_cast (Nat.div_add_mod num den).symm
  have hsplit : (num : ℚ) / den = (num / den : ℕ) + (num % den : ℕ) / den := by
    rw [hparts,add_div,mul_div_cancel_left₀ _ hpos.ne']
  have hlt : ((num % den : ℕ) : ℚ) / den ≤ 1 :=
    (div_le_one hpos).2 (Nat.cast_le.2 (Nat.mod_lt num hden).le)
  have hnonneg : (0 : ℚ) ≤ (num % den : ℕ) / den := by positivity
  rw [hsplit,abs_le]
  rcases roundHalfEven_cases num den with ⟨hhalf,hround⟩ | ⟨hhalf,hround⟩
  · have hle : ((num % den : ℕ) : ℚ) / den ≤ 1 / 2 := by
      rw [div_le_iff₀ hpos]
      have : (2 : ℚ) * (num % den : ℕ) ≤ den := mod_cast hhalf
      linarith
    rw [hround]
    constructor <;> linarith
  · have hle : 1 / 2 ≤ ((num % den : ℕ) : ℚ) / den := by
      rw [le_div_iff₀ hpos]
      have : (den : ℚ) ≤ 2 * (num % den : ℕ) := mod_cast hhalf
      linarith
    rw [hround,Nat.cast_succ]
    constructor <;> linarith

theorem le_roundHalfEven (hden : 0 < den) (h : k * den ≤ num) : k ≤ roundHalfEven num den := by
  have hle : k ≤ num / den := (Nat.le_div_iff_mul_le hden).2 h
  rcases roundHalfEven_cases num den with ⟨-,hround⟩ | ⟨-,hround⟩ <;> omega

/-- A code as the sum of exponent and significand, one that is rounded up to `2 ^ 53` included. -/
theorem unitsOfCode_sum (hm : m ≤ 2 ^ 53) (h : d = 0 ∨ 2 ^ 52 ≤ m) : unitsOfCode (d * 2 ^ 52 + m) = m * 2 ^ d := by
  rcases Nat.lt_or_ge m (2 ^ 52) with hsmall | hnormal
  · obtain rfl : d = 0 := h.resolve_right hsmall.not_ge
    rw [Nat.zero_mul,Nat.zero_add,unitsOfCode_subnormal hsmall,Nat.pow_zero,Nat.mul_one]
  · rcases Nat.lt_or_ge m (2 ^ 53) with hlt | hge
    · have hcode : d * 2 ^ 52 + m = (d + 1) * 2 ^ 52 + (m - 2 ^ 52) := by omega
      rw [hcode,unitsOfCode_normal d (by omega),Nat.add_sub_cancel' hnormal]
    · obtain rfl : m = 2 ^ 53 := le_antisymm hm hge
      have hcode : d * 2 ^ 52 + 2 ^ 53 = (d + 1 + 1) * 2 ^ 52 + 0 := by omega
      rw [hcode,unitsOfCode_normal (d + 1) (by decide),Nat.pow_succ']
      omega

def dropped (num den : ℕ) : ℕ := Nat.log2 (num / den) - 52

theorem two_pow_le_of_dropped (h : 0 < dropped num den) : 2 ^ (52 + dropped num den) ≤ num / den := by
  unfold dropped at h ⊢
  have hne : num / den ≠ 0 := by
    intro hzero
    rw [hzero] at h
    simp at h
  rw [Nat.add_sub_cancel' (by omega)]
  exact Nat.log2_self_le hne

theorem units_codeOfQuotient (hden : 0 < den) (hfinite : codeOfQuotient num den < infinityCode) :
    unitsOfCode (codeOfQuotient num den) =
      roundHalfEven num (den * 2 ^ dropped num den) * 2 ^ dropped num den := by
  have hpos : 0 < den * 2 ^ dropped num den := by positivity
  have hcode : codeOfQuotient num den =
      dropped num den * 2 ^ 52 + roundHalfEven num (den * 2 ^ dropped num den) := by
    have h : codeOfQuotient num den =
        min infinityCode (dropped num den * 2 ^ 52 + roundHalfEven num (den * 2 ^ dropped num den)) := rfl
    omega
  rw [hcode]
  refine unitsOfCode_sum (roundHalfEven_le hpos ?_) ?_
  · have hbits : num / den < 2 ^ (53 + dropped num den) :=
      Nat.lt_log2_self.trans_le (Nat.pow_le_pow_right (by decide) (by unfold dropped; omega))
    rw [Nat.mul_left_comm,← Nat.pow_add,Nat.mul_comm]
    exact ((Nat.div_lt_iff_lt_mul hden).1 hbits).le
  · rcases Nat.eq_zero_or_pos (dropped num den) with hzero | hdropped
    · exact Or.inl hzero
    · right
      refine le_roundHalfEven hpos ?_
      rw [Nat.mul_left_comm,← Nat.pow_add,Nat.mul_comm,← Nat.le_div_iff_mul_le hden]
      exact two_pow_le_of_dropped hdropped

theorem error_codeOfQuotient (hden : 0 < den) (hfinite : codeOfQuotient num den < infinityCode) :
    |(unitsOfCode (codeOfQuotient num den) : ℚ) - num / den| ≤ 1 / 2 + num / den / 2 ^ 53 := by
  rw [units_codeOfQuotient hden hfinite]
  have hdropped := @two_pow_le_of_dropped num den
  generalize dropped num den = d at *
  have hpower : (0 : ℚ) < 2 ^ d := by positivity
  have hround : |(roundHalfEven num (den * 2 ^ d) : ℚ) - num / (den * 2 ^ d : ℕ)| ≤ 1 / 2 :=
    error_roundHalfEven (by positivity)
  have hscaled : (roundHalfEven num (den * 2 ^ d) * 2 ^ d : ℕ) - (num : ℚ) / den =
      (roundHalfEven num (den * 2 ^ d) - num / (den * 2 ^ d : ℕ)) * 2 ^ d := by
    push_cast
    field_simp
  rw [hscaled,abs_mul,abs_of_pos hpower]
  calc |(roundHalfEven num (den * 2 ^ d) : ℚ) - num / (den * 2 ^ d : ℕ)| * 2 ^ d
      ≤ 1 / 2 * 2 ^ d := mul_le_mul_of_nonneg_right hround hpower.le
    _ ≤ 1 / 2 + num / den / 2 ^ 53 := ?_
  rcases Nat.eq_zero_or_pos d with rfl | hd
  · have hnonneg : (0 : ℚ) ≤ num / den / 2 ^ 53 := by positivity
    simpa using hnonneg
  · have hle : (2 : ℚ) ^ (52 + d) ≤ num / den :=
      calc (2 : ℚ) ^ (52 + d) = (2 ^ (52 + d) : ℕ) := by push_cast; rfl
        _ ≤ (num / den : ℕ) := Nat.cast_le.2 (hdropped hd)
        _ ≤ num / den := Nat.cast_div_le
    have hhalf : 1 / 2 * (2 : ℚ) ^ d = 2 ^ (52 + d) / 2 ^ 53 := by
      rw [pow_add]
      ring
    rw [hhalf]
    have := div_le_div_of_nonneg_right hle (show (0 : ℚ) ≤ 2 ^ 53 by positivity)
    linarith

/-- A number that one rounding may make of another. -/
def Near (v y : ℚ) : Prop := |y - v| ≤ (v + 1 / 2 ^ 10) / 2 ^ 53

theorem two_pow_le_unitsPerOne {i : ℕ} (h : i ≤ 1074) : 2 ^ i ≤ unitsPerOne := by
  unfold unitsPerOne
  revert h
  generalize 1074 = j
  exact Nat.pow_le_pow_right (by decide)

theorem near_of_units (hunits : x.units = unitsOfCode (codeOfQuotient num den)) (hden : 0 < den)
    (hfinite : codeOfQuotient num den < infinityCode) : Near (num / unitsPerOne / den) x.magnitude := by
  have hpos := unitsPerOne_cast_pos
  have hlarge : (2 : ℚ) ^ 64 ≤ unitsPerOne := mod_cast two_pow_le_unitsPerOne (show 64 ≤ 1074 by decide)
  have herror := error_codeOfQuotient hden hfinite
  have hscaled : x.magnitude - num / unitsPerOne / den =
      ((unitsOfCode (codeOfQuotient num den) : ℚ) - num / den) / unitsPerOne := by
    rw [magnitude_eq,hunits]
    ring
  rw [Near,hscaled,abs_div,abs_of_pos hpos,div_le_iff₀ hpos]
  refine herror.trans ?_
  have hcancel : (num / unitsPerOne / den : ℚ) * unitsPerOne = num / den := by
    field_simp
  have hunit : (1 : ℚ) / 2 ≤ 1 / 2 ^ 10 / 2 ^ 53 * unitsPerOne := by
    linarith
  linarith

theorem near_ofCode (s : Bool) (hden : 0 < den) (hfinite : (ofCode s (codeOfQuotient num den)).code < infinityCode) :
    Near (num / unitsPerOne / den) (ofCode s (codeOfQuotient num den)).magnitude := by
  have hlt : codeOfQuotient num den < 2 ^ 63 := (Nat.min_le_left _ _).trans_lt infinityCode_lt
  rw [code_ofCode s hlt] at hfinite
  exact near_of_units (by rw [units,code_ofCode s hlt]) hden hfinite

theorem near_mapUnits {f : ℕ → ℕ} (hx : x.code < infinityCode) (hden : 0 < den)
    (hfinite : (x.mapUnits f den).code < infinityCode) :
    Near (f x.units / unitsPerOne / den) (x.mapUnits f den).magnitude := by
  rw [mapUnits,if_neg hx.not_ge] at hfinite ⊢
  exact near_ofCode x.negative hden hfinite

theorem near_mulNat {n : ℕ} (hx : x.code < infinityCode) (hfinite : (x.mulNat n).code < infinityCode) :
    Near (x.magnitude * n) (x.mulNat n).magnitude := by
  have h : Near ((x.units * n : ℕ) / unitsPerOne / (1 : ℕ)) (x.mulNat n).magnitude :=
    near_mapUnits hx Nat.one_pos hfinite
  rwa [Nat.cast_mul,Nat.cast_one,div_one,mul_div_right_comm,← magnitude_eq] at h

theorem near_divNat {n : ℕ} (hx : x.code < infinityCode) (hn : 0 < n) (hfinite : (x.divNat n).code < infinityCode) :
    Near (x.magnitude / n) (x.divNat n).magnitude := by
  have h : Near (x.units / unitsPerOne / n) (x.divNat n).magnitude := near_mapUnits hx hn hfinite
  rwa [← magnitude_eq] at h

theorem near_ofDecimal {n : ℕ} (hfinite : (ofDecimal n places).code < infinityCode) :
    Near (n / 10 ^ places) (ofDecimal n places).magnitude := by
  have h : Near ((n * unitsPerOne : ℕ) / unitsPerOne / (10 ^ places : ℕ)) (ofDecimal n places).magnitude :=
    near_ofCode false (Nat.pow_pos (by decide)) hfinite
  rwa [Nat.cast_mul,mul_div_cancel_right₀ _ unitsPerOne_cast_pos.ne',Nat.cast_pow,Nat.cast_ofNat] at h

theorem nearest_multiple (n : ℕ) (hden : 0 < den) :
    2 * ((n + den / 2) / den * den) ≤ 2 * n + den ∧ 2 * n ≤ 2 * ((n + den / 2) / den * den) + den := by
  have hlow := Nat.div_mul_le_self (n + den / 2) den
  have hhigh := Nat.lt_div_mul_add hden (a := n + den / 2)
  omega

theorem exists_near_round (hx : x.code < infinityCode) (hfinite : x.round.code < infinityCode) :
    ∃ k : ℕ, |(k : ℚ) - x.magnitude| ≤ 1 / 2 ∧ Near k x.round.magnitude := by
  have hpos := unitsPerOne_cast_pos
  rw [round] at hfinite ⊢
  have h := near_mapUnits hx Nat.one_pos hfinite
  obtain ⟨hlow,hhigh⟩ := nearest_multiple x.units unitsPerOne_pos
  generalize (x.units + unitsPerOne / 2) / unitsPerOne = k at h hlow hhigh
  rw [Nat.cast_mul,Nat.cast_one,div_one,mul_div_cancel_right₀ _ hpos.ne'] at h
  refine ⟨k,?_,h⟩
  have hlow' : 2 * ((k : ℚ) * unitsPerOne) ≤ 2 * x.units + unitsPerOne := mod_cast hlow
  have hhigh' : 2 * (x.units : ℚ) ≤ 2 * (k * unitsPerOne) + unitsPerOne := mod_cast hhigh
  have hscaled : x.magnitude * unitsPerOne = x.units := by
    rw [magnitude_eq,div_mul_cancel₀ _ hpos.ne']
  rw [abs_le]
  constructor
  · refine le_of_mul_le_mul_right ?_ hpos
    linarith
  · refine le_of_mul_le_mul_right ?_ hpos
    linarith

theorem error_scaled (x : Binary64) (places : ℕ) : |(x.scaled places : ℚ) - x.magnitude * 10 ^ places| ≤ 1 / 2 := by
  have h : |(x.scaled places : ℚ) - (x.units * 10 ^ places : ℕ) / unitsPerOne| ≤ 1 / 2 :=
    error_roundHalfEven unitsPerOne_pos
  rwa [Nat.cast_mul,mul_div_right_comm,← magnitude_eq,Nat.cast_pow,Nat.cast_ofNat] at h

/-- How four roundings, one step to a whole number and one step to a decimal add up. Below `2 ^ 50` the decimal that is
written is the whole number itself; above, it may be the next one, but there one rounding is as large. -/
theorem abs_sub_le_of_steps {x a b c q : ℚ} {k n : ℕ} (ha : Near (x * 10 ^ 6) a)
    (hk : |(k : ℚ) - a| ≤ 1 / 2) (hb : Near k b) (hc : Near (b / 10 ^ 6) c) (hn : |(n : ℚ) - c * 10 ^ 6| ≤ 1 / 2)
    (hq : Near (n / 10 ^ 6) q) : |q - x| ≤ 1 / 2 / 10 ^ 6 + (1 + x) / 2 ^ 50 := by
  rw [Near,abs_le] at ha hb hc hq
  rw [abs_le] at hk hn ⊢
  rcases lt_or_ge k (2 ^ 50) with hsmall | hlarge
  · have hle : (k : ℚ) ≤ 2 ^ 50 := mod_cast hsmall.le
    have hclose : (n : ℚ) < k + 1 ∧ (k : ℚ) < n + 1 := by
      constructor <;> linarith
    have hnk : n = k := by
      have h1 : n < k + 1 := mod_cast hclose.1
      have h2 : k < n + 1 := mod_cast hclose.2
      omega
    subst hnk
    constructor <;> linarith
  · have hle : (2 : ℚ) ^ 50 ≤ k := mod_cast hlarge
    constructor <;> linarith

theorem Bounded.toRat_eq {j : ℕ} (hx : x.Bounded j) : x.toRat = x.magnitude := by
  rw [toRat,hx.negative]
  rfl

/-- Different by half a millionth at most, and by a part of `2 ^ 50` that the roundings on the way may add. -/
def Close (x y : Binary64) : Prop := |y.toRat - x.toRat| ≤ 1 / 2 / 10 ^ 6 + (1 + x.toRat) / 2 ^ 50

/-- What is read from six places is close to what was written. -/
theorem Moderate.close_sixPlaces (hx : x.Moderate) : x.Close (denoted 6 ((x.roundPlaces 6).fixed 6)) := by
  have hscaled : (x.mulNat (10 ^ 6)).Bounded _ := hx.bounded.mulNat (by decide) (by decide)
  have hwhole := hscaled.round (by decide) (by decide)
  have hrounded : (x.roundPlaces 6).Bounded _ := hwhole.divNat (by decide) (by decide) (show 0 < 10 ^ 6 by decide)
  have hread := bounded_denoted_fixed hrounded (by decide) (by decide) (show 0 < 6 by decide)
  have ha := near_mulNat (hx.bounded.finite (by decide)) (hscaled.finite (by decide))
  obtain ⟨k,hk,hb⟩ := exists_near_round (hscaled.finite (by decide)) (hwhole.finite (by decide))
  have hc := near_divNat (hwhole.finite (by decide)) (show 0 < 10 ^ 6 by decide) (hrounded.finite (by decide))
  have hn := error_scaled (x.roundPlaces 6) 6
  rw [Close,hread.toRat_eq,hx.bounded.toRat_eq]
  rw [denoted_fixed hrounded (by decide) (by decide)] at hread ⊢
  have hq := near_ofDecimal (hread.finite (by decide))
  rw [Nat.cast_pow,Nat.cast_ofNat] at ha hc
  exact abs_sub_le_of_steps ha hk hb hc hn hq

end TraceEngine.Binary64
