import TraceEngine.Proofs.Identifier
import TraceEngine.Uri.Percent

/-!
Percent encoding: which characters it writes, and texts that it leaves as they are.
-/
namespace TraceEngine.Uri

open Text

variable {inSet : Char → Bool} {s : List Char} {c : Char} {b : ℕ}

/-- What was checked of all ASCII characters. -/
@[elab_as_elim]
theorem of_ascii {motive : Char → Prop} (hc : c.toNat < 128) (h : ∀ n < 128, motive (Char.ofNat n)) : motive c := by
  simpa using h c.toNat hc

theorem bytesOf_ne_nil (c : Char) : bytesOf c ≠ [] := by
  simp [bytesOf,← List.length_eq_zero_iff,(Char.utf8Size_pos c).ne']

theorem bytesOf_of_ascii (h : c.toNat < 128) : bytesOf c = [c.toNat] := of_ascii h (by decide +kernel)

theorem lt_of_mem_bytesOf (h : b ∈ bytesOf c) : b < 256 := by
  obtain ⟨byte,-,rfl⟩ := List.mem_map.1 h
  exact byte.toNat_lt

/-- The first byte of a character in several bytes is that of no other character. -/
theorem eq_of_bytesOf {rest : List ℕ} (hb : b < 128) (h : bytesOf c = b :: rest) : c.toNat = b := by
  by_cases hc : c.toNat < 128
  · rw [bytesOf_of_ascii hc] at h
    exact (List.cons.inj h).1
  · have hsize : ¬c.val.toNat ≤ 127 := by
      have hval : c.val.toNat = c.toNat := rfl
      omega
    rw [bytesOf,String.utf8EncodeChar] at h
    simp only [if_neg hsize] at h
    split_ifs at h <;> simp at h <;> omega

theorem percentDecode_ne_nil (h : s ≠ []) : percentDecode s ≠ [] := by
  fun_cases percentDecode s <;> simp_all [bytesOf_ne_nil]

theorem percentDecode_of_ascii (h : ∀ c ∈ s, c ≠ '%' ∧ c.toNat < 128) : percentDecode s = s.map Char.toNat := by
  induction s with
  | nil => rfl
  | cons c s ih =>
    obtain ⟨⟨hc,hascii⟩,hs⟩ := List.forall_mem_cons.1 h
    rw [percentDecode,bytesOf_of_ascii hascii,ih hs]
    · rfl
    · simp [hc]

theorem percentEncode_cons (inSet : Char → Bool) (c : Char) (s : List Char) : percentEncode inSet (c :: s) =
    (if inSet c then (bytesOf c).flatMap encodeByte else [c]) ++ percentEncode inSet s := by
  simp [percentEncode]

theorem percentEncode_ne_nil (h : s ≠ []) : percentEncode inSet s ≠ [] := by
  obtain ⟨c,rest,rfl⟩ := List.exists_cons_of_ne_nil h
  rw [percentEncode_cons]
  cases hc : inSet c with
  | false => simp
  | true =>
    obtain ⟨b,bs,hbytes⟩ := List.exists_cons_of_ne_nil (bytesOf_ne_nil c)
    simp [hbytes,encodeByte]

theorem encodeByte_eq (b : ℕ) :
    encodeByte b = ['%',(hexDigit (b / 16 % 16)).toUpper,(hexDigit (b % 16)).toUpper] := rfl

/-- What holds of the characters that are kept, of the percent sign and of the digits holds of the whole text. -/
theorem forall_mem_percentEncode {P : Char → Prop} (hkept : ∀ c ∈ s, inSet c = false → P c) (hpercent : P '%')
    (hdigit : ∀ d < 16, P (hexDigit d).toUpper) : ∀ c ∈ percentEncode inSet s, P c := by
  have hbyte : ∀ b, ∀ c ∈ encodeByte b, P c := by
    intro b c hc
    simp only [encodeByte_eq,List.mem_cons,List.not_mem_nil,or_false] at hc
    rcases hc with rfl | rfl | rfl
    · exact hpercent
    · exact hdigit _ (Nat.mod_lt _ (by decide))
    · exact hdigit _ (Nat.mod_lt _ (by decide))
  induction s with
  | nil => simp [percentEncode]
  | cons a s ih =>
    obtain ⟨ha,hs⟩ := List.forall_mem_cons.1 hkept
    rw [percentEncode_cons]
    refine List.forall_mem_append.2 ⟨?_,ih hs⟩
    cases h : inSet a with
    | false => simpa using ha h
    | true =>
      intro c hc
      obtain ⟨b,-,hb⟩ := List.mem_flatMap.1 (by simpa using hc)
      exact hbyte b c hb

/-- In the text every percent sign stands before the digits of a point. -/
def EscapesPointsOnly (s : List Char) : Prop :=
  ∀ x y rest, '%' :: x :: y :: rest <:+ s → [x.toLower,y.toLower] = ['2','e']

/-- Encoding that gives escapes of points only has not written them, where points stand for themselves. -/
theorem percentEncode_eq_self (hpoint : inSet '.' = false) (h : EscapesPointsOnly (percentEncode inSet s)) :
    percentEncode inSet s = s := by
  induction s with
  | nil => rfl
  | cons c s ih =>
    rw [percentEncode_cons] at h ⊢
    have hs := ih fun x y rest hsuffix => h x y rest (hsuffix.trans (List.suffix_append _ _))
    cases hc : inSet c with
    | false => simp [hs]
    | true =>
      obtain ⟨b,bs,hbytes⟩ := List.exists_cons_of_ne_nil (bytesOf_ne_nil c)
      have hb : b < 256 := lt_of_mem_bytesOf (hbytes ▸ List.mem_cons_self)
      rw [hc,hbytes,if_pos rfl,List.flatMap_cons,encodeByte_eq] at h
      -- The escape stands for a point, and then the character was one.
      have hdigits := h _ _ _ List.suffix_rfl
      have hb : b = 0x2e := by
        have hall : ∀ b < 256, [(hexDigit (b / 16 % 16)).toUpper.toLower,(hexDigit (b % 16)).toUpper.toLower] =
            ['2','e'] → b = 0x2e := by decide +kernel
        exact hall b hb hdigits
      have hc' : c = '.' := Char.toNat_inj.1 ((eq_of_bytesOf (by omega) hbytes).trans hb)
      rw [hc',hpoint] at hc
      contradiction

end TraceEngine.Uri
