import Mathlib.Order.Monotone.Basic
import TraceEngine.Proofs.Binary64.Magnitude

/-!
Numbers that rounding leaves as they are. A whole number of units is a floating-point number if 53 binary digits, with
zeros behind them, write it; such a number is found again by rounding, its multiples by powers of two are numbers too,
and so is the least whole number that is not below it.
-/
namespace TraceEngine.Binary64

variable {x y : Binary64} {num den code n m e f k : ℕ}

theorem unitsOfCode_subnormal (h : code < 2 ^ 52) : unitsOfCode code = code := if_pos h

theorem unitsOfCode_normal (e : ℕ) (hf : f < 2 ^ 52) : unitsOfCode ((e + 1) * 2 ^ 52 + f) = (2 ^ 52 + f) * 2 ^ e := by
  have hnormal : ¬(e + 1) * 2 ^ 52 + f < Nat.pow 2 52 := by
    simp only [Nat.pow_eq]
    omega
  have hexponent : ((e + 1) * 2 ^ 52 + f) / Nat.pow 2 52 = e + 1 := by
    simp only [Nat.pow_eq]
    omega
  have hfraction : ((e + 1) * 2 ^ 52 + f) % Nat.pow 2 52 = f := by
    simp only [Nat.pow_eq]
    omega
  rw [unitsOfCode,if_neg hnormal,hexponent,hfraction]
  rfl

theorem exists_normal (h : 2 ^ 52 ≤ code) : ∃ e f, f < 2 ^ 52 ∧ code = (e + 1) * 2 ^ 52 + f :=
  ⟨code / 2 ^ 52 - 1,code % 2 ^ 52,Nat.mod_lt _ (by positivity),by omega⟩

/-- The codes stand in the order of the magnitudes. -/
theorem unitsOfCode_strictMono : StrictMono unitsOfCode := by
  refine strictMono_nat_of_lt_succ fun code => ?_
  rcases Nat.lt_or_ge code (2 ^ 52) with hsmall | hnormal
  · rcases Nat.lt_or_ge (code + 1) (2 ^ 52) with hnext | hnext
    · rw [unitsOfCode_subnormal hsmall,unitsOfCode_subnormal hnext]
      exact Nat.lt_succ_self code
    · have hcode : code + 1 = (0 + 1) * 2 ^ 52 + 0 := by omega
      rw [hcode,unitsOfCode_subnormal hsmall,unitsOfCode_normal 0 (by decide)]
      simpa using hsmall
  · obtain ⟨e,f,hf,rfl⟩ := exists_normal hnormal
    rcases Nat.lt_or_ge (f + 1) (2 ^ 52) with hnext | hnext
    · rw [Nat.add_assoc,unitsOfCode_normal e hf,unitsOfCode_normal e hnext]
      exact Nat.mul_lt_mul_of_pos_right (by omega) (by positivity)
    · -- The fraction is full, so the next code begins a new exponent.
      have hcode : (e + 1) * 2 ^ 52 + f + 1 = (e + 1 + 1) * 2 ^ 52 + 0 := by omega
      rw [hcode,unitsOfCode_normal e hf,unitsOfCode_normal (e + 1) (by decide),Nat.pow_succ' (n := e),
        ← Nat.mul_assoc]
      exact Nat.mul_lt_mul_of_pos_right (by omega) (by positivity)

theorem unitsOfCode_one : unitsOfCode one.code = unitsPerOne := by decide +kernel

theorem log2_significand (hf : f < 2 ^ 52) (e : ℕ) : Nat.log2 ((2 ^ 52 + f) * 2 ^ e) = 52 + e := by
  have hpos : (2 ^ 52 + f) * 2 ^ e ≠ 0 := by positivity
  refine (Nat.log2_eq_iff hpos).2 ⟨?_,?_⟩
  · rw [Nat.pow_add]
    exact Nat.mul_le_mul_right _ (Nat.le_add_right _ _)
  · rw [Nat.add_right_comm,Nat.pow_add]
    exact Nat.mul_lt_mul_of_pos_right (by omega) (by positivity)

theorem roundHalfEven_mul (hden : 0 < den) (k : ℕ) : roundHalfEven (k * den) den = k := by
  simp [roundHalfEven,hden]

theorem codeOfQuotient_units (hcode : code ≤ infinityCode) (hden : 0 < den) :
    codeOfQuotient (unitsOfCode code * den) den = code := by
  rw [codeOfQuotient,Nat.mul_div_cancel _ hden]
  rcases Nat.lt_or_ge code (2 ^ 52) with hsmall | hnormal
  · have hlog : Nat.log2 code - 52 = 0 := by
      rcases Nat.eq_zero_or_pos code with rfl | hpos
      · rfl
      · have := (Nat.log2_lt hpos.ne').2 hsmall
        omega
    rw [unitsOfCode_subnormal hsmall,hlog]
    simp [roundHalfEven_mul hden,hcode]
  · obtain ⟨e,f,hf,rfl⟩ := exists_normal hnormal
    have hlog : 52 + e - 52 = e := by omega
    have hround : roundHalfEven ((2 ^ 52 + f) * 2 ^ e * den) (den * 2 ^ e) = 2 ^ 52 + f := by
      rw [Nat.mul_assoc,Nat.mul_comm (2 ^ e)]
      exact roundHalfEven_mul (by positivity) _
    have hsum : e * 2 ^ 52 + (2 ^ 52 + f) = (e + 1) * 2 ^ 52 + f := by omega
    rw [unitsOfCode_normal e hf,log2_significand hf,hlog]
    change min infinityCode (e * 2 ^ 52 + roundHalfEven ((2 ^ 52 + f) * 2 ^ e * den) (den * 2 ^ e)) = _
    rw [hround,hsum,Nat.min_eq_right hcode]

/-- So many units are the magnitude of a finite number. -/
def Representable (n : ℕ) : Prop := ∃ code < infinityCode, unitsOfCode code = n

theorem two_pow_lt_unitsOfCode_infinityCode {j : ℕ} (hj : j ≤ 2046) : 2 ^ j < unitsOfCode infinityCode :=
  calc 2 ^ j
      < 2 ^ (52 + j) := Nat.pow_lt_pow_right (by decide) (by omega)
    _ ≤ unitsOfCode infinityCode := le_unitsOfCode (Nat.mul_le_mul_right _ (Nat.succ_le_succ hj))

theorem exists_unitsPerOne_eq : ∃ e, unitsPerOne = 2 ^ e := by
  unfold unitsPerOne
  generalize 1074 = e
  exact ⟨e,rfl⟩

theorem two_pow_mul_unitsPerOne_lt (hk : k ≤ 972) : 2 ^ k * unitsPerOne < unitsOfCode infinityCode := by
  rw [pow_mul_unitsPerOne]
  exact two_pow_lt_unitsOfCode_infinityCode (Nat.add_le_add_right hk 1074)

theorem two_pow_le_mul_unitsPerOne (h : e ≤ k + 1074) : 2 ^ e ≤ 2 ^ k * unitsPerOne := by
  rw [pow_mul_unitsPerOne]
  exact Nat.pow_le_pow_right (by decide) h

theorem exists_code_of_lt (hm : m < 2 ^ 53) (e : ℕ) : ∃ code, unitsOfCode code = m * 2 ^ e := by
  induction e generalizing m with
  | zero =>
    rcases Nat.lt_or_ge m (2 ^ 52) with hsmall | hnormal
    · exact ⟨m,by rw [unitsOfCode_subnormal hsmall,Nat.pow_zero,Nat.mul_one]⟩
    · refine ⟨(0 + 1) * 2 ^ 52 + (m - 2 ^ 52),?_⟩
      rw [unitsOfCode_normal 0 (by omega),Nat.add_sub_cancel' hnormal]
  | succ e ih =>
    rcases Nat.lt_or_ge m (2 ^ 52) with hsmall | hnormal
    · -- There is room for one more digit in front.
      obtain ⟨code,hcode⟩ := ih (m := 2 * m) (by omega)
      exact ⟨code,by rw [hcode,Nat.pow_succ',Nat.mul_comm 2 m,Nat.mul_assoc]⟩
    · refine ⟨(e + 1 + 1) * 2 ^ 52 + (m - 2 ^ 52),?_⟩
      rw [unitsOfCode_normal (e + 1) (by omega),Nat.add_sub_cancel' hnormal]

theorem representable_of_lt (hm : m < 2 ^ 53) (hlt : m * 2 ^ e < unitsOfCode infinityCode) :
    Representable (m * 2 ^ e) := by
  obtain ⟨code,hcode⟩ := exists_code_of_lt hm e
  refine ⟨code,unitsOfCode_strictMono.lt_iff_lt.1 ?_,hcode⟩
  rwa [hcode]

theorem Representable.exists_significand (h : Representable n) : ∃ m e, m < 2 ^ 53 ∧ n = m * 2 ^ e := by
  obtain ⟨code,-,rfl⟩ := h
  rcases Nat.lt_or_ge code (2 ^ 52) with hsmall | hnormal
  · exact ⟨code,0,by omega,by rw [unitsOfCode_subnormal hsmall,Nat.pow_zero,Nat.mul_one]⟩
  · obtain ⟨e,f,hf,rfl⟩ := exists_normal hnormal
    exact ⟨2 ^ 52 + f,e,by omega,unitsOfCode_normal e hf⟩

theorem Representable.mul_pow (h : Representable n) (hlt : n * 2 ^ k < unitsOfCode infinityCode) :
    Representable (n * 2 ^ k) := by
  obtain ⟨m,e,hm,rfl⟩ := h.exists_significand
  rw [Nat.mul_assoc,← Nat.pow_add] at hlt ⊢
  exact representable_of_lt hm hlt

/-- The least number of ones that make up so many units. -/
def onesAbove (n : ℕ) : ℕ := (n + (unitsPerOne - 1)) / unitsPerOne

theorem lt_onesAbove_iff : k < onesAbove n ↔ k * unitsPerOne < n := by
  have hpos := unitsPerOne_pos
  rw [onesAbove,Nat.lt_iff_add_one_le,Nat.le_div_iff_mul_le hpos,Nat.succ_mul]
  omega

theorem onesAbove_le_iff : onesAbove n ≤ k ↔ n ≤ k * unitsPerOne := by
  rw [← not_lt,lt_onesAbove_iff,not_lt]

theorem ceilScaled_eq (x : Binary64) (digits : ℕ) : x.ceilScaled digits = onesAbove (x.units * 2 ^ digits) := rfl

theorem onesAbove_mul (k : ℕ) : onesAbove (k * unitsPerOne) = k :=
  eq_of_forall_lt_iff fun _ => lt_onesAbove_iff.trans (Nat.mul_lt_mul_right unitsPerOne_pos)

/-- From `2 ^ 52` ones on all numbers are whole. -/
theorem Representable.whole_or_lt (h : Representable n) : (∃ k, n = k * unitsPerOne) ∨ n < 2 ^ 52 * unitsPerOne := by
  obtain ⟨m,e,hm,rfl⟩ := h.exists_significand
  rcases Nat.lt_or_ge e 1074 with he | he
  · right
    calc m * 2 ^ e
        < 2 ^ 53 * 2 ^ e := Nat.mul_lt_mul_of_pos_right hm (by positivity)
      _ = 2 ^ (53 + e) := (Nat.pow_add ..).symm
      _ ≤ 2 ^ 52 * unitsPerOne := two_pow_le_mul_unitsPerOne (by omega)
  · left
    refine ⟨m * 2 ^ (e - 1074),?_⟩
    rw [Nat.mul_assoc,pow_mul_unitsPerOne,Nat.sub_add_cancel he]

theorem Representable.onesAbove (h : Representable n) : Representable (onesAbove n * unitsPerOne) := by
  rcases h.whole_or_lt with ⟨k,hk⟩ | hlt
  · rw [hk] at h ⊢
    rwa [onesAbove_mul]
  · have hle : Binary64.onesAbove n ≤ 2 ^ 52 := onesAbove_le_iff.2 hlt.le
    have hfinite := (Nat.mul_le_mul_right unitsPerOne hle).trans_lt (two_pow_mul_unitsPerOne_lt (by decide))
    obtain ⟨e,he⟩ := exists_unitsPerOne_eq
    rw [he] at hfinite ⊢
    exact representable_of_lt (by omega) hfinite

theorem Representable.onesAbove_lt (h : Representable n) (hk : 2 ^ 52 < k) (hlt : n < k * unitsPerOne) :
    Binary64.onesAbove n < k := by
  rcases h.whole_or_lt with ⟨i,hi⟩ | hsmall
  · rw [hi] at hlt ⊢
    rw [onesAbove_mul]
    exact Nat.lt_of_mul_lt_mul_right hlt
  · exact (onesAbove_le_iff.2 hsmall.le).trans_lt hk

/-- A finite number of so many units, not negative. -/
structure Exactly (n : ℕ) (x : Binary64) : Prop where
  negative : x.negative = false
  finite : x.code < infinityCode
  units : x.units = n

theorem Exactly.representable (hx : x.Exactly n) : Representable n := ⟨x.code,hx.finite,hx.units⟩

theorem Representable.exactly (h : Representable n) (hden : 0 < den) :
    (ofCode false (codeOfQuotient (n * den) den)).Exactly n := by
  obtain ⟨code,hcode,rfl⟩ := h
  have hlt : code < 2 ^ 63 := hcode.trans infinityCode_lt
  rw [codeOfQuotient_units hcode.le hden]
  exact ⟨negative_ofCode false hlt,by rwa [code_ofCode false hlt],by rw [units,code_ofCode false hlt]⟩

/-- Multiplication by a power of two is exact as long as the product is finite, subnormal factors included. -/
theorem Exactly.mul_pow (hx : x.Exactly n) (hy : y.Exactly (2 ^ k * unitsPerOne))
    (hlt : n * 2 ^ k < unitsOfCode infinityCode) : (x.mul y).Exactly (n * 2 ^ k) := by
  have h := (hx.representable.mul_pow hlt).exactly unitsPerOne_pos
  rw [Nat.mul_assoc] at h
  simpa [mul,isNaN,isInfinite,hx.negative,hy.negative,hx.finite.ne,hx.finite.not_gt,hy.finite.ne,
    hy.finite.not_gt,hx.units,hy.units] using h

theorem Exactly.ceil (hx : x.Exactly n) : x.ceil.Exactly (onesAbove n * unitsPerOne) := by
  have h := hx.representable.onesAbove.exactly Nat.one_pos
  rw [Nat.mul_one] at h
  simpa [Binary64.ceil,mapUnits,onesAbove,hx.finite.not_ge,hx.negative,hx.units] using h

theorem Exactly.toNatural (hx : x.Exactly (n * unitsPerOne)) (bits : ℕ) :
    x.toNatural bits = min n (2 ^ bits - 1) := by
  simp [Binary64.toNatural,isNaN,hx.finite.not_gt,hx.negative,hx.units,Nat.mul_div_cancel _ unitsPerOne_pos]

end TraceEngine.Binary64
