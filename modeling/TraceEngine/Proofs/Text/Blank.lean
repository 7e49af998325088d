import Mathlib.Tactic.Basic
import TraceEngine.Proofs.Text.Numerals
import TraceEngine.Text.Blank

/-!
Text that trimming leaves as it is, for there is no blank at its two ends, and pieces of text that are joined.
-/
namespace TraceEngine.Text

variable {a b s : List Char}

def NoBlank (s : List Char) : Prop := ∀ c ∈ s, isBlank c = false

-- Along the list, not over all characters.
instance (s : List Char) : Decidable (NoBlank s) := List.decidableBAll _ s

theorem dropWhile_of_head? {drop : Char → Bool} (h : ∀ c ∈ s.head?, drop c = false) : s.dropWhile drop = s := by
  cases s <;> simp_all

theorem trim_eq_self (hfirst : ∀ c ∈ s.head?, isBlank c = false) (hlast : ∀ c ∈ s.getLast?, isBlank c = false) :
    trim s = s := by
  rw [trim,strip,dropWhile_of_head? hfirst,dropWhile_of_head? (by simpa using hlast),List.reverse_reverse]

theorem trim_of_noBlank (h : NoBlank s) : trim s = s :=
  trim_eq_self (fun c hc => h c (List.mem_of_mem_head? hc)) fun c hc => h c (List.mem_of_mem_getLast? hc)

/-- What stands between two pieces without blanks is not touched. -/
theorem trim_between (ha : a ≠ []) (hb : b ≠ []) (hblankA : NoBlank a) (hblankB : NoBlank b) (m : List Char) :
    trim (a ++ (m ++ b)) = a ++ (m ++ b) := by
  refine trim_eq_self (fun c hc => hblankA c ?_) fun c hc => hblankB c ?_
  · obtain ⟨first,hfirst⟩ := Option.ne_none_iff_exists'.1 (List.head?_eq_none_iff.not.2 ha)
    exact List.mem_of_mem_head? (by simpa [List.head?_append,hfirst] using hc)
  · obtain ⟨last,hlast⟩ := Option.ne_none_iff_exists'.1 (List.getLast?_eq_none_iff.not.2 hb)
    exact List.mem_of_mem_getLast? (by simpa [List.getLast?_append,hlast] using hc)

@[simp] theorem trim_trim (s : List Char) : trim (trim s) = trim s := by
  have hlast : ∀ c ∈ (trim s).getLast?, isBlank c = false := by
    intro c hc
    rw [trim,strip,List.getLast?_reverse] at hc
    have h := List.head?_dropWhile_not isBlank (s.dropWhile isBlank).reverse
    rwa [show _ = some c from hc] at h
  refine trim_eq_self (fun c hc => ?_) hlast
  -- What is dropped at the end leaves the first character in its place.
  obtain ⟨rest,hrest⟩ := List.dropWhile_suffix isBlank (l := (s.dropWhile isBlank).reverse)
  have hsplit : s.dropWhile isBlank = trim s ++ rest.reverse := by
    rw [trim,strip,← List.reverse_append,hrest,List.reverse_reverse]
  have h := List.head?_dropWhile_not isBlank s
  rw [hsplit,List.head?_append,show _ = some c from hc] at h
  simpa using h

theorem mem_of_mem_trim {s : List Char} {c : Char} (h : c ∈ trim s) : c ∈ s := by
  have hback := List.dropWhile_subset isBlank (List.mem_reverse.1 h)
  exact List.dropWhile_subset isBlank (List.mem_reverse.1 hback)

theorem notMem_of_mem_splitOn {sep : Char} {s piece : List Char} (h : piece ∈ s.splitOn sep) : sep ∉ piece := by
  induction s generalizing piece with
  | nil =>
    obtain rfl : piece = [] := by simpa using h
    simp
  | cons c s ih =>
    obtain ⟨first,pieces,hpieces⟩ := List.exists_cons_of_ne_nil (List.splitOn_ne_nil sep s)
    rw [List.splitOn_cons_eq_if_modifyHead,hpieces] at h
    by_cases hc : c = sep
    · simp only [hc,beq_self_eq_true,if_true,List.mem_cons] at h
      rcases h with rfl | h
      · simp
      · exact ih (by simpa [hpieces] using h)
    · simp only [beq_iff_eq,hc,if_false,List.modifyHead_cons,List.mem_cons] at h
      rcases h with rfl | h
      · have hfirst : sep ∉ first := ih (by simp [hpieces])
        simp [hfirst,Ne.symm hc]
      · exact ih (by simp [hpieces,h])

theorem exists_intercalate (sep a b : List Char) (pieces : List (List Char)) :
    ∃ m, sep.intercalate (a :: (pieces ++ [b])) = a ++ (m ++ b) := by
  induction pieces generalizing a with
  | nil => exact ⟨sep,by simp [List.intercalate_cons_cons]⟩
  | cons piece pieces ih =>
    obtain ⟨m,hm⟩ := ih piece
    exact ⟨sep ++ piece ++ m,by simp [List.intercalate_cons_cons,hm]⟩

/-- What holds of the separator and of every piece holds of the pieces joined. -/
theorem forall_mem_intercalate {P : Char → Prop} {sep : List Char} {pieces : List (List Char)}
    (hsep : ∀ c ∈ sep, P c) (h : ∀ s ∈ pieces, ∀ c ∈ s, P c) : ∀ c ∈ sep.intercalate pieces, P c := by
  induction pieces with
  | nil => simp
  | cons a pieces ih =>
    cases pieces with
    | nil => simpa using h
    | cons b pieces =>
      have hrest := ih fun s hs => h s (by simp [hs])
      rw [List.intercalate_cons_cons]
      exact List.forall_mem_append.2 ⟨List.forall_mem_append.2 ⟨h a (by simp),hsep⟩,hrest⟩

theorem mem_intercalate_of_mem {sep a : List Char} {pieces : List (List Char)} (ha : a ∈ pieces) {c : Char}
    (hc : c ∈ a) : c ∈ sep.intercalate pieces := by
  induction pieces with
  | nil => simp at ha
  | cons b pieces ih =>
    cases pieces with
    | nil => simp_all
    | cons b' pieces =>
      rw [List.intercalate_cons_cons]
      rcases List.mem_cons.1 ha with rfl | ha
      · simp [hc]
      · simp [ih ha]

theorem isBlank_of_isDigit {c : Char} (h : c.isDigit = true) : isBlank c = false := by
  have hc : 48 ≤ c.toNat ∧ c.toNat ≤ 57 := Char.isDigit_iff_toNat.1 h
  simp only [isBlank,decide_eq_false_iff_not]
  omega

end TraceEngine.Text
