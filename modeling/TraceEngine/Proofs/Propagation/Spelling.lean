import TraceEngine.Proofs.Propagation.Overwriting

/-!
Header names in several spellings. A list compares names and a map lowers them; for ASCII names the two come to the
same, so fields that are set one after another are found alike in both, and each name holds the value set last.
-/
namespace TraceEngine

namespace Text

def IsAscii (s : String) : Prop := ∀ c ∈ s.toList, c.toNat < 128

instance (s : String) : Decidable (IsAscii s) := List.decidableBAll _ s.toList

theorem lowerFrom_of_ascii {s : List Char} (h : ∀ c ∈ s, c.toNat < 128) (before : List Char) :
    lowerFrom before s = s.map Char.toLower := by
  induction s generalizing before with
  | nil => rfl
  | cons c s ih =>
    obtain ⟨hc,hs⟩ := List.forall_mem_cons.1 h
    have hsigma : c.toNat ≠ 0x3a3 := by omega
    simp [lowerFrom,hsigma,lowerChar,hc,ih hs]

theorem toList_lowercase {s : String} (h : IsAscii s) : (lowercase s).toList = s.toList.map Char.toLower := by
  rw [lowercase,String.toList_ofList,lowerFrom_of_ascii h]

end Text

namespace Carrier

open Text

variable {a b name : String}

/-- For ASCII names the two kinds of carriers have the same names in mind. -/
theorem sameName_iff_lowercase (ha : IsAscii a) (hb : IsAscii b) : sameName a b = true ↔ lowercase a = lowercase b := by
  rw [← String.toList_inj,toList_lowercase ha,toList_lowercase hb,sameName,decide_eq_true_eq]

theorem apart_of_sameName (ha : IsAscii a) (hb : IsAscii b) (h : sameName a b = false) : Apart a b where
  sameName := h
  lowercase := fun hlower => by
    rw [(sameName_iff_lowercase ha hb).2 hlower.symm] at h
    contradiction

theorem values_congr (ha : IsAscii a) (hb : IsAscii b) (h : sameName a b = true) (c : Carrier) :
    c.values a = c.values b := by
  have hlower : a.toList.map Char.toLower = b.toList.map Char.toLower := by simpa [sameName] using h
  cases c with
  | list fields => simp [values,sameName,hlower]
  | map fields => rw [values,values,(sameName_iff_lowercase ha hb).1 h]

theorem values_set (c : Carrier) (ha : IsAscii a) (hname : IsAscii name) (value : String) :
    (c.set a value).values name = if sameName a name then [value] else c.values name := by
  cases h : sameName a name with
  | true => rw [if_pos rfl,← values_congr ha hname h,values_set_self]
  | false => rw [if_neg (by simp),values_set_of_apart c (apart_of_sameName ha hname h)]

def setAll (c : Carrier) (fields : List HeaderField) : Carrier := fields.foldl (fun c f => c.set f.1 f.2) c

/-- The value that was set last under a name, in whatever spelling. -/
def lastSet? (fields : List HeaderField) (name : String) : Option String :=
  (fields.reverse.find? (sameName ·.1 name)).map (·.2)

theorem lastSet?_concat (fields : List HeaderField) (f : HeaderField) (name : String) :
    lastSet? (fields ++ [f]) name = if sameName f.1 name then some f.2 else lastSet? fields name := by
  cases h : sameName f.1 name <;> simp [lastSet?,h]

theorem values_setAll (c : Carrier) {fields : List HeaderField} (h : ∀ f ∈ fields, IsAscii f.1) (hname : IsAscii name) :
    (c.setAll fields).values name = ((lastSet? fields name).map ([·])).getD (c.values name) := by
  induction fields using List.reverseRecOn with
  | nil => rfl
  | append_singleton fields f ih =>
    obtain ⟨hfields,hf⟩ := List.forall_mem_append.1 h
    have hlast : (c.setAll (fields ++ [f])) = (c.setAll fields).set f.1 f.2 := by simp [setAll]
    rw [hlast,values_set _ (hf f (by simp)) hname,lastSet?_concat,ih hfields]
    split <;> rfl

theorem values_setAll_of_empty {c : Carrier} (hc : c.values name = []) {fields : List HeaderField}
    (h : ∀ f ∈ fields, IsAscii f.1) (hname : IsAscii name) :
    (c.setAll fields).values name = (lastSet? fields name).toList := by
  rw [values_setAll c h hname,hc]
  cases lastSet? fields name <;> rfl

/-- Fields with ASCII names, set one after another in an empty list and in an empty map, are found alike in both, in
whatever spelling they are set and looked up. There is a value under a name if one was set, and it is the one set last.
So a trace context is read alike from both, down to the log. -/
theorem setAll_agrees {fields : List HeaderField} (h : ∀ f ∈ fields, IsAscii f.1) :
    (∀ c ∈ [list [],map []], ∀ name, IsAscii name →
      (c.setAll fields).get? name = lastSet? fields name ∧
        (c.setAll fields).getAll? name = (lastSet? fields name).map ([·])) ∧
      ∀ key, TraceContext.extract ((list []).setAll fields) key =
        TraceContext.extract ((map []).setAll fields) key := by
  have hvalues {c : Carrier} (hc : c ∈ [list [],map []]) {name : String} (hname : IsAscii name) :
      (c.setAll fields).values name = (lastSet? fields name).toList := by
    refine values_setAll_of_empty ?_ h hname
    rcases List.mem_pair.1 hc with rfl | rfl <;> rfl
  refine ⟨fun c hc name hname => ?_,fun key => TraceContext.extract_congr ?_ ?_ key⟩
  · rw [get?,getAll?,hvalues hc hname]
    cases lastSet? fields name <;> simp
  · have hname : IsAscii parentHeader := by decide
    rw [hvalues (by simp) hname,hvalues (by simp) hname]
  · have hname : IsAscii stateHeader := by decide
    rw [hvalues (by simp) hname,hvalues (by simp) hname]

/-- A request on which two contexts were written, under names in several spellings. -/
def respelled : List HeaderField :=
  [("Traceparent","00-000000000000000000000000000000d4-00000000000000e5-01"),("TraceState","old=1"),
    ("TRACEPARENT","00-000000000000000000000000000000a1-00000000000000b2-00"),("tracestate","rojo=1")]

theorem setAll_agrees_respelled :
    (∀ f ∈ respelled, IsAscii f.1) ∧ IsAscii "traceState" ∧
      ((list []).setAll respelled).getAll? "traceState" = some ["rojo=1"] ∧
      ((map []).setAll respelled).getAll? "traceState" = some ["rojo=1"] ∧
      TraceContext.extract ((list []).setAll respelled) none =
        TraceContext.extract ((map []).setAll respelled) none := by
  have h : ∀ f ∈ respelled, IsAscii f.1 := by decide
  have hname : IsAscii "traceState" := by decide
  obtain ⟨hget,hextract⟩ := setAll_agrees h
  have hlast : lastSet? respelled "traceState" = some "rojo=1" := by decide
  exact ⟨h,hname,by simpa [hlast] using (hget (list []) (by simp) _ hname).2,
    by simpa [hlast] using (hget (map []) (by simp) _ hname).2,hextract none⟩

end Carrier

end TraceEngine
