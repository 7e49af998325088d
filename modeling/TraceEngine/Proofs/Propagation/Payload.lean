import Mathlib.Tactic.MkIffOfInductiveProp
import TraceEngine.Proofs.Binary64.Decimal
import TraceEngine.Proofs.Text.Blank
import TraceEngine.Propagation.Payload

/-!
The own entry of a trace state, written and read back. Account and application have to be there, no field may have
a dash in it, and the priority is read as the number that its decimal places denote.
-/
namespace TraceEngine

open Text

theorem Binary64.Moderate.bounded_roundPlaces {x : Binary64} (hx : x.Moderate) :
    (x.roundPlaces Priority.places).Bounded (997 + 1074 + 4 * Priority.places) :=
  hx.bounded.roundPlaces (by decide) (by decide)

namespace StatePayload

variable {p : StatePayload}

/-- What can be read back once it is written. -/
@[mk_iff]
structure Writable (p : StatePayload) : Prop where
  version : p.version < 2 ^ 8
  accountId : p.accountId ≠ "" ∧ '-' ∉ p.accountId.toList
  appId : p.appId ≠ "" ∧ '-' ∉ p.appId.toList
  id : ∀ s ∈ p.id, s ≠ "" ∧ '-' ∉ s.toList
  transactionId : ∀ s ∈ p.transactionId, s ≠ "" ∧ '-' ∉ s.toList
  priority : ∀ x ∈ p.priority, x.Moderate
  timestamp : p.timestamp < 2 ^ 64

instance (p : StatePayload) : Decidable p.Writable := decidable_of_iff' _ p.writable_iff

/-- What becomes of an entry that is written and read: the priority is the number that its places denote. -/
def rounded (p : StatePayload) : StatePayload :=
  { p with priority := p.priority.map fun x => .denoted Priority.places (priorityText (some x)) }

def fields (p : StatePayload) : List (List Char) :=
  [decimal p.version,decimal p.parentType.id,p.accountId.toList,p.appId.toList,(p.id.getD "").toList,
   (p.transactionId.getD "").toList,(sampledText p.sampled).toList,(priorityText p.priority).toList,
   decimal p.timestamp]

theorem toList_text (p : StatePayload) : p.text.toList = ['-'].intercalate p.fields := by
  rw [text,String.toList_intercalate]
  simp only [List.map,toList_toString]
  rfl

theorem exists_text (p : StatePayload) : ∃ m, p.text.toList = decimal p.version ++ (m ++ decimal p.timestamp) := by
  rw [toList_text]
  exact exists_intercalate ['-'] _ _ (p.fields.drop 1).dropLast

theorem noBlank_decimal (n : ℕ) : NoBlank (decimal n) := fun _ hc =>
  isBlank_of_isDigit (isDigit_of_mem_decimal hc)

theorem trim_text (p : StatePayload) : trim p.text.toList = p.text.toList := by
  obtain ⟨m,hm⟩ := p.exists_text
  rw [hm,trim_between (decimal_ne_nil _) (decimal_ne_nil _) (noBlank_decimal _) (noBlank_decimal _)]

theorem dash_notMem_decimal (n : ℕ) : '-' ∉ decimal n := fun h => by
  simpa using isDigit_of_mem_decimal h

theorem dash_notMem_paddedDecimal (width n : ℕ) : '-' ∉ paddedDecimal width n := fun h => by
  simpa using isDigit_of_mem_paddedDecimal h

theorem dash_notMem_getD {o : Option String} (h : ∀ s ∈ o, s ≠ "" ∧ '-' ∉ s.toList) : '-' ∉ (o.getD "").toList := by
  cases o <;> simp_all

theorem dash_notMem_sampledText (o : Option Bool) : '-' ∉ (sampledText o).toList := by
  cases o with
  | none => decide
  | some b => cases b <;> decide

theorem dash_notMem_priorityText {o : Option Binary64} (h : ∀ x ∈ o, x.Moderate) :
    '-' ∉ (priorityText o).toList := by
  cases o with
  | none => decide
  | some x =>
    have hx := (h x rfl).bounded_roundPlaces
    simp [priorityText,Binary64.toList_fixed hx (by decide),dash_notMem_decimal,dash_notMem_paddedDecimal]

theorem splitOn_text (hp : p.Writable) : p.text.toList.splitOn '-' = p.fields := by
  rw [toList_text]
  refine List.splitOn_intercalate '-' ?_ (by simp [fields])
  simp [fields,dash_notMem_decimal,hp.accountId.2,hp.appId.2,dash_notMem_getD hp.id,
    dash_notMem_getD hp.transactionId,dash_notMem_sampledText,dash_notMem_priorityText hp.priority]

theorem natural?_decimal {bits n : ℕ} (h : n < 2 ^ bits) : natural? bits (decimal n) = some n := by
  have hle : n ≤ maxOfBits bits := Nat.le_sub_one_of_lt h
  simp [natural?,readNatural_decimal hle,Except.toOption]

theorem nonEmpty?_toList {s : String} (h : s ≠ "") : nonEmpty? s.toList = some s := by
  simp [nonEmpty?,h]

theorem nonEmpty?_getD {o : Option String} (h : ∀ s ∈ o, s ≠ "" ∧ '-' ∉ s.toList) :
    nonEmpty? (o.getD "").toList = o := by
  cases o with
  | none => rfl
  | some s => exact nonEmpty?_toList (h s rfl).1

theorem readSampled_sampledText (o : Option Bool) : readSampled (sampledText o).toList = .ok o := by
  cases o with
  | none => rfl
  | some b => cases b <;> rfl

theorem readPriority_priorityText {o : Option Binary64} (h : ∀ x ∈ o, x.Moderate) :
    readPriority (priorityText o).toList =
      .ok (o.map fun x => .denoted Priority.places (priorityText (some x))) := by
  cases o with
  | none => rfl
  | some x =>
    have hx := (h x rfl).bounded_roundPlaces
    have hread := Binary64.read_fixed hx (by decide) (by decide) (show 0 < Priority.places by decide) (by decide)
    have hfinite := (Binary64.bounded_denoted_fixed hx (by decide) (by decide)
      (show 0 < Priority.places by decide)).finite (by decide)
    have hne : (priorityText (some x)).toList ≠ [] := by
      simp [priorityText,Binary64.toList_fixed hx (by decide)]
    obtain ⟨c,rest,hc⟩ := List.exists_cons_of_ne_nil hne
    simp only [priorityText] at hc ⊢
    simp [readPriority,hc,hc ▸ hread,Binary64.isNaN,Binary64.isInfinite,hfinite.ne,hfinite.not_gt]

theorem parentTypeOf_decimal (t : ParentType) : (natural? 8 (decimal t.id)).bind ParentType.ofId? = some t := by
  have hid : t.id < 2 ^ 8 := by cases t <;> decide
  simp [natural?_decimal hid]

/-- An entry is read back as it was written, its priority to the places that the text has. -/
theorem read_text (hp : p.Writable) : read p.text.toList = .ok p.rounded := by
  rw [read,trim_text,splitOn_text hp]
  simp only [fields,natural?_decimal hp.version,parentTypeOf_decimal,nonEmpty?_toList hp.accountId.1,
    nonEmpty?_toList hp.appId.1,nonEmpty?_getD hp.id,nonEmpty?_getD hp.transactionId,readSampled_sampledText,
    readPriority_priorityText hp.priority,natural?_decimal hp.timestamp,orFault]
  simp [bind,Except.bind,pure,Except.pure,rounded]

end StatePayload

end TraceEngine
