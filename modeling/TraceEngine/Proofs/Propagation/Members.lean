import Mathlib.Tactic.MkIffOfInductiveProp
import TraceEngine.Proofs.Propagation.Payload
import TraceEngine.Propagation.Context

/-!
The state header, written and read back. Members that stay whole are read as they were written, up to the places of a
priority; an own entry in front is read whatever follows it, and what is passed on from any header can be printed.
-/
namespace TraceEngine

open Text

/-- Printable characters other than the comma that ends a member. -/
def Plain (s : List Char) : Prop := ∀ c ∈ s, TraceState.isPrintable c = true ∧ c ≠ ','

-- Along the list, not over all characters.
instance (s : List Char) : Decidable (Plain s) := List.decidableBAll _ s

theorem plain_append {a b : List Char} : Plain (a ++ b) ↔ Plain a ∧ Plain b :=
  List.forall_mem_append

theorem plain_of_toNat {s : List Char} (h : ∀ c ∈ s, 45 ≤ c.toNat ∧ c.toNat ≤ 126) : Plain s := by
  intro c hc
  constructor
  · simp only [TraceState.isPrintable,Char.le_def,UInt32.le_iff_toNat_le,decide_eq_true_eq]
    exact ⟨le_trans (by decide) (h c hc).1,(h c hc).2⟩
  · rintro rfl
    simpa using (h _ hc).1

theorem plain_of_isDigit {s : List Char} (h : ∀ c ∈ s, c.isDigit = true) : Plain s := plain_of_toNat fun c hc => by
  have hdigit : 48 ≤ c.toNat ∧ c.toNat ≤ 57 := Char.isDigit_iff_toNat.1 (h c hc)
  omega

namespace TraceState

/-- One member as it stands in the list: neither empty nor with blanks at its ends. -/
@[mk_iff]
structure IsMember (m : List Char) : Prop where
  ne : m ≠ []
  trimmed : trim m = m
  plain : Plain m

instance (m : List Char) : Decidable (IsMember m) := decidable_of_iff' _ (isMember_iff m)

/-- A member that is not the own entry. -/
@[mk_iff]
structure Foreign (key : Option String) (m : String) : Prop where
  isMember : IsMember m.toList
  value : '=' ∈ m.toList
  name : key ≠ some (String.ofList (trim (m.toList.takeWhile (· != '='))))

instance (key : Option String) (m : String) : Decidable (Foreign key m) := decidable_of_iff' _ (foreign_iff key m)

/-- The name of an entry of our own that the reader finds again. -/
@[mk_iff]
structure IsKey (key : String) : Prop where
  plain : Plain key.toList
  noBlank : NoBlank key.toList
  noValue : '=' ∉ key.toList

instance (key : String) : Decidable (IsKey key) := decidable_of_iff' _ (isKey_iff key)

theorem members_append (s rest : List Char) : members (s ++ ',' :: rest) = members s ++ members rest := by
  simp [members,List.splitOn_append_cons_self]

/-- A piece that stays whole: it is neither empty nor cut or trimmed by the reader. -/
def IsPiece (m : List Char) : Prop := m ≠ [] ∧ trim m = m ∧ ',' ∉ m

theorem IsMember.isPiece {m : List Char} (h : IsMember m) : IsPiece m :=
  ⟨h.ne,h.trimmed,fun hc => (h.plain ',' hc).2 rfl⟩

theorem members_of_isPiece {m : List Char} (h : IsPiece m) : members m = [m] := by
  obtain ⟨hne,htrim,hcomma⟩ := h
  simp [members,List.splitOn_eq_singleton hcomma,htrim,hne]

/-- The members of several headers that are joined by commas are those of each, in order. -/
theorem members_intercalate (headers : List (List Char)) :
    members ([','].intercalate headers) = headers.flatMap members := by
  induction headers with
  | nil => decide
  | cons header headers ih =>
    cases headers with
    | nil => simp
    | cons next headers =>
      rw [List.intercalate_cons_cons,List.append_assoc,List.singleton_append,members_append,ih]
      rfl

theorem flatMap_members {ms : List (List Char)} (h : ∀ m ∈ ms, IsPiece m) : ms.flatMap members = ms := by
  induction ms with
  | nil => rfl
  | cons m ms ih =>
    rw [List.flatMap_cons,members_of_isPiece (h m (by simp)),ih fun m hm => h m (by simp [hm])]
    rfl

theorem add_foreign {key : Option String} {m : String} (h : Foreign key m) (state : TraceState) :
    (add key state m.toList).value = { state with others := state.others ++ [m] } := by
  cases hrest : m.toList.dropWhile (· != '=') with
  | nil => simpa using List.dropWhile_eq_nil_iff.1 hrest _ h.value
  | cons c value => simp [add,hrest,h.name]

theorem foldlM_add {key : Option String} {ms : List String} (h : ∀ m ∈ ms, Foreign key m) (state : TraceState) :
    ((ms.map String.toList).foldlM (add key) state).value = { state with others := state.others ++ ms } := by
  induction ms generalizing state with
  | nil => simp
  | cons m ms ih =>
    simp only [List.map_cons,List.foldlM_cons,Logged.value_bind,add_foreign (h m (by simp))]
    rw [ih (fun m hm => h m (by simp [hm]))]
    simp

theorem add_own {key : String} (hkey : IsKey key) {value : List Char} {payload : StatePayload}
    (h : StatePayload.read value = .ok payload) :
    (add (some key) {} (key.toList ++ '=' :: value)).value = { own := some payload } := by
  have hname : ∀ c ∈ key.toList, (c != '=') = true := fun c hc => bne_iff_ne.2 fun h => hkey.noValue (h ▸ hc)
  simp [add,List.takeWhile_append_of_pos hname,List.dropWhile_append_of_pos hname,trim_of_noBlank hkey.noBlank,h]

def entryText (e : String × StatePayload) : String := s!"{e.1}={e.2.text}"

theorem toList_entryText (e : String × StatePayload) :
    (entryText e).toList = e.1.toList ++ '=' :: e.2.text.toList := by
  simp [entryText,toString]

end TraceState

/-- An entry has nothing in it that ends a member or is not printed. -/
@[mk_iff]
structure StatePayload.Printed (p : StatePayload) : Prop where
  accountId : Plain p.accountId.toList
  appId : Plain p.appId.toList
  id : ∀ s ∈ p.id, Plain s.toList
  transactionId : ∀ s ∈ p.transactionId, Plain s.toList

instance (p : StatePayload) : Decidable p.Printed := decidable_of_iff' _ (StatePayload.printed_iff p)

theorem plain_decimal (n : ℕ) : Plain (decimal n) := plain_of_isDigit fun _ => isDigit_of_mem_decimal

theorem plain_getD {o : Option String} (h : ∀ s ∈ o, Plain s.toList) : Plain (o.getD "").toList := by
  cases o with
  | none => simp [Plain]
  | some s => exact h s rfl

theorem plain_sampledText (o : Option Bool) : Plain (StatePayload.sampledText o).toList := by
  cases o with
  | none => simp [Plain,StatePayload.sampledText]
  | some b => cases b <;> exact plain_of_isDigit (by simp [StatePayload.sampledText])

theorem plain_priorityText {o : Option Binary64} (h : ∀ x ∈ o, x.Moderate) :
    Plain (StatePayload.priorityText o).toList := by
  cases o with
  | none => simp [Plain,StatePayload.priorityText]
  | some x =>
    have hx := (h x rfl).bounded_roundPlaces
    have hpoint : Plain ['.'] := by simp [Plain,TraceState.isPrintable]
    rw [StatePayload.priorityText,Binary64.toList_fixed hx (by decide),← List.singleton_append]
    exact plain_append.2 ⟨plain_decimal _,plain_append.2 ⟨hpoint,
      plain_of_isDigit fun _ => isDigit_of_mem_paddedDecimal⟩⟩

theorem StatePayload.plain_text {p : StatePayload} (h : p.Printed) (hp : p.Writable) : Plain p.text.toList := by
  have hdash : Plain ['-'] := by simp [Plain,TraceState.isPrintable]
  rw [StatePayload.toList_text]
  refine forall_mem_intercalate hdash ?_
  simp only [StatePayload.fields,List.forall_mem_cons,List.not_mem_nil,false_imp_iff,implies_true,and_true]
  exact ⟨plain_decimal _,plain_decimal _,h.accountId,h.appId,plain_getD h.id,plain_getD h.transactionId,
    plain_sampledText _,plain_priorityText hp.priority,plain_decimal _⟩

namespace TraceState

/-- An entry of our own under a name that the reader finds again. -/
@[mk_iff]
structure IsEntry (e : String × StatePayload) : Prop where
  key : IsKey e.1
  writable : e.2.Writable
  printed : e.2.Printed

instance (e : String × StatePayload) : Decidable (IsEntry e) := decidable_of_iff' _ (isEntry_iff e)

theorem trim_entry {key : List Char} (h : NoBlank key) (p : StatePayload) :
    trim (key ++ '=' :: p.text.toList) = key ++ '=' :: p.text.toList := by
  obtain ⟨m,hm⟩ := p.exists_text
  have hname : NoBlank (key ++ ['=']) := List.forall_mem_append.2 ⟨h,by simp [isBlank]⟩
  have htrim := trim_between (by simp) (decimal_ne_nil p.timestamp) hname (StatePayload.noBlank_decimal _)
    (decimal p.version ++ m)
  simpa [hm] using htrim

theorem IsEntry.isMember {e : String × StatePayload} (h : IsEntry e) : IsMember (entryText e).toList := by
  rw [toList_entryText]
  have hplain : Plain ['='] := by simp [Plain,isPrintable]
  refine ⟨by simp,trim_entry h.key.noBlank e.2,?_⟩
  rw [← List.singleton_append]
  exact plain_append.2 ⟨h.key.plain,plain_append.2 ⟨hplain,StatePayload.plain_text h.printed h.writable⟩⟩

def written (entry : Option (String × StatePayload)) (others : List String) : List String :=
  (entry.map entryText).toList ++ others.take (maxMembers - entry.toList.length)

theorem text_eq (entry : Option (String × StatePayload)) (others : List String) :
    text entry others = ",".intercalate (written entry others) := by
  cases entry <;> simp [text,written,entryText,maxMembers]

/-- The state header is read as it was written, up to the places of the priority and the limit of members. -/
theorem read_text {entry : Option (String × StatePayload)} {others : List String} (hentry : ∀ e ∈ entry, IsEntry e)
    (hothers : ∀ m ∈ others, Foreign (entry.map (·.1)) m) :
    (read (entry.map (·.1)) (text entry others)).value =
      { own := entry.map (·.2.rounded), others := others.take (maxMembers - entry.toList.length) } := by
  let rest := others.take (maxMembers - entry.toList.length)
  have hrest : ∀ m ∈ rest, Foreign (entry.map (·.1)) m := fun m hm => hothers m (List.mem_of_mem_take hm)
  have hmember : ∀ m ∈ (written entry others).map String.toList, IsMember m := by
    simp only [written,List.forall_mem_map,List.forall_mem_append,Option.mem_toList,
      Option.map_eq_some_iff]
    refine ⟨?_,fun m hm => (hrest m hm).isMember⟩
    rintro _ ⟨e,he,rfl⟩
    exact (hentry e he).isMember
  have htext : (text entry others).toList = [','].intercalate ((written entry others).map String.toList) := by
    rw [text_eq,String.toList_intercalate]
    rfl
  have hprintable : ∀ c ∈ (text entry others).toList, isPrintable c = true :=
    htext ▸ forall_mem_intercalate (by simp [isPrintable]) fun m hm c hc => ((hmember m hm).plain c hc).1
  rw [read,if_pos (List.all_eq_true.2 hprintable),htext,members_intercalate,
    flatMap_members fun m hm => (hmember m hm).isPiece]
  cases entry with
  | none => exact foldlM_add hrest {}
  | some e =>
    have hown := add_own (hentry e rfl).key (StatePayload.read_text (hentry e rfl).writable)
    have hothers := foldlM_add hrest { own := some e.2.rounded }
    simp only [written,Option.map_some,Option.toList_some,List.singleton_append,List.map_cons,toList_entryText]
    rw [List.foldlM_cons,Logged.value_bind,hown]
    exact hothers

theorem add_cases (key : Option String) (state : TraceState) (member : List Char) :
    (add key state member).value = state ∨
      (add key state member).value = { state with others := state.others ++ [String.ofList member] } ∨
        state.own = none ∧ (add key state member).value.others = state.others := by
  unfold add
  simp only
  split
  · exact .inl rfl
  · split
    · exact .inr (.inl rfl)
    · split
      · exact .inl rfl
      · rename_i hnone
        have hown : state.own = none := by simp_all
        split <;> exact .inr (.inr ⟨hown,rfl⟩)

/-- Nothing that follows counts beside an own entry. -/
theorem foldlM_add_own {key : Option String} {state : TraceState} {p : StatePayload} (h : state.own = some p)
    (ms : List (List Char)) :
    ∃ others, (ms.foldlM (add key) state).value = { state with others := others } := by
  induction ms generalizing state with
  | nil => exact ⟨state.others,rfl⟩
  | cons m ms ih =>
    rw [List.foldlM_cons,Logged.value_bind]
    rcases add_cases key state m with he | he | ⟨hnone,-⟩
    · rw [he]
      exact ih h
    · rw [he]
      exact ih h
    · simp [h] at hnone

/-- The name of a member stands before its first equals sign. -/
def nameOf (m : List Char) : String := String.ofList (trim (m.takeWhile (· != '=')))

/-- A member with a value that is not under the own name. -/
def isPassedOn (key : Option String) (m : List Char) : Bool := decide ('=' ∈ m) && key != some (nameOf m)

theorem others_add (key : Option String) (state : TraceState) (m : List Char) :
    (add key state m).value.others = state.others ++ if isPassedOn key m then [String.ofList m] else [] := by
  have hvalue : '=' ∈ m ↔ m.dropWhile (· != '=') ≠ [] := by simp [List.dropWhile_eq_nil_iff]
  unfold add
  simp only [isPassedOn,hvalue]
  split
  · rename_i hnil
    simp [hnil]
  · rename_i hrest
    by_cases hkey : key = some (nameOf m)
    · rw [if_neg (by simp [hkey,nameOf])]
      simp only [hkey,bne_self_eq_false,Bool.and_false,Bool.false_eq_true,if_false,List.append_nil]
      split
      · rfl
      · split <;> rfl
    · rw [if_pos (by simpa [nameOf] using hkey)]
      simp [hrest,hkey]

theorem others_foldlM (key : Option String) (state : TraceState) (ms : List (List Char)) :
    (ms.foldlM (add key) state).value.others = state.others ++ (ms.filter (isPassedOn key)).map String.ofList := by
  induction ms generalizing state with
  | nil => simp
  | cons m ms ih =>
    rw [List.foldlM_cons,Logged.value_bind,ih,others_add]
    cases h : isPassedOn key m <;> simp [h]

theorem mem_of_mem_members {s m : List Char} (hm : m ∈ members s) {c : Char} (hc : c ∈ m) : c ∈ s := by
  obtain ⟨a,ha,rfl⟩ := List.mem_map.1 (List.mem_of_mem_filter hm)
  have hs : [','].intercalate (s.splitOn ',') = s := List.intercalate_splitOn ','
  rw [← hs]
  exact mem_intercalate_of_mem ha (mem_of_mem_trim hc)

theorem printable_read {key : Option String} {s m : String} (h : m ∈ (read key s).value.others) :
    ∀ c ∈ m.toList, isPrintable c = true := by
  unfold read at h
  split at h
  · rename_i hprintable
    simp only [others_foldlM,List.nil_append,List.mem_map,List.mem_filter] at h
    obtain ⟨a,⟨ha,-⟩,rfl⟩ := h
    exact fun c hc => List.all_eq_true.1 hprintable c (mem_of_mem_members ha (by simpa using hc))
  · simp at h

theorem exists_members {m : String} (hm : IsMember m.toList) (ms : List String) :
    ∃ rest, members (",".intercalate (m :: ms)).toList = m.toList :: rest := by
  rw [String.toList_intercalate]
  change ∃ rest, members ([','].intercalate (m.toList :: ms.map String.toList)) = _
  rw [members_intercalate,List.flatMap_cons,members_of_isPiece hm.isPiece]
  exact ⟨_,rfl⟩

theorem read_entry {e : String × StatePayload} {others : List String} (he : IsEntry e)
    (h : ∀ m ∈ others, ∀ c ∈ m.toList, isPrintable c = true) :
    ∃ rest, (read (some e.1) (text (some e) others)).value = { own := some e.2.rounded, others := rest } := by
  have hprintable : ∀ c ∈ (text (some e) others).toList, isPrintable c = true := by
    rw [text_eq,String.toList_intercalate]
    refine forall_mem_intercalate (by simp [isPrintable]) fun m hm => ?_
    simp only [written,Option.map_some,Option.toList_some,List.singleton_append,List.map_cons,List.mem_cons,
      List.mem_map] at hm
    rcases hm with rfl | ⟨m,hm,rfl⟩
    · exact fun c hc => (he.isMember.plain c hc).1
    · exact h m (List.mem_of_mem_take hm)
  obtain ⟨rest,hrest⟩ := exists_members he.isMember (others.take (maxMembers - 1))
  have hown := add_own he.key (StatePayload.read_text he.writable)
  rw [read,if_pos (List.all_eq_true.2 hprintable),text_eq]
  change ∃ rest, ((members (",".intercalate (entryText e :: others.take (maxMembers - 1))).toList).foldlM
    (add (some e.1)) {}).value = _
  rw [hrest,List.foldlM_cons,Logged.value_bind,toList_entryText,hown]
  exact foldlM_add_own rfl rest

theorem read_empty (key : Option String) : (read key "").value = {} := rfl

end TraceState

end TraceEngine
