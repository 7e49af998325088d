import TraceEngine.Propagation.Carrier

/-!
What is read under a name after a field was set: the one value that was set, and under another name what was there
before.
-/
namespace TraceEngine.Carrier

variable {name other : String}

@[simp] theorem sameName_self (name : String) : sameName name name = true := by simp [sameName]

/-- Names that neither kind of carrier takes for one another. -/
structure Apart (a b : String) : Prop where
  sameName : sameName a b = false
  lowercase : Text.lowercase b ≠ Text.lowercase a

theorem lookup_filter_self (fields : List HeaderField) (name : String) :
    (fields.filter (·.1 != name)).lookup name = none := by
  simp only [List.lookup_eq_none_iff,List.mem_filter]
  rintro f ⟨-,hf⟩
  simpa using fun h => bne_iff_ne.1 hf h.symm

theorem lookup_filter_of_ne (fields : List HeaderField) (h : other ≠ name) :
    (fields.filter (·.1 != name)).lookup other = fields.lookup other := by
  induction fields with
  | nil => rfl
  | cons f fields ih =>
    obtain ⟨key,value⟩ := f
    by_cases hkey : key = name
    · simp [hkey,List.lookup_cons,beq_false_of_ne h,ih]
    · simp [hkey,List.lookup_cons,ih]

@[simp] theorem values_set_self (c : Carrier) (name value : String) : (c.set name value).values name = [value] := by
  cases c with
  | list fields => simp [set,values,List.filter_filter]
  | map fields => simp [set,values,put,List.lookup_append,lookup_filter_self]

theorem values_set_of_apart (c : Carrier) (h : Apart name other) (value : String) :
    (c.set name value).values other = c.values other := by
  cases c with
  | list fields =>
    have hkeep (f : HeaderField) : (sameName f.1 other && !sameName f.1 name) = sameName f.1 other := by
      have hapart := h.sameName
      simp only [sameName,decide_eq_false_iff_not] at hapart ⊢
      grind
    simp [set,values,List.filter_filter,hkeep,h.sameName]
  | map fields =>
    simp [set,values,put,List.lookup_append,lookup_filter_of_ne fields h.lowercase,List.lookup_cons,
      beq_false_of_ne h.lowercase]

end TraceEngine.Carrier
