import TraceEngine.Proofs.Binary64.Error
import TraceEngine.Proofs.Propagation.Payload

/-!
Own entries that are accepted from others, written and read again. What is accepted can be written: its ids have no
dash in them because the fields are cut at the dashes, its numbers are within their bits, and its priority has no sign.
So the next reader accepts it too, and finds the same fields, the priority rounded to its places.
-/
namespace TraceEngine.StatePayload

open Text

variable {p : StatePayload} {s field : List Char} {bits n : ℕ}

theorem natural?_lt (h : natural? bits field = some n) : n < 2 ^ bits := by
  have hread : readNatural (maxOfBits bits) field = .ok n := by
    cases hr : readNatural (maxOfBits bits) field <;> simp_all [natural?,Except.toOption]
  exact (readNatural_le hread).trans_lt (Nat.sub_one_lt (Nat.two_pow_pos bits).ne')

theorem dashFree_of_nonEmpty? {a : String} (hdash : '-' ∉ field) (h : nonEmpty? field = some a) :
    a ≠ "" ∧ '-' ∉ a.toList := by
  unfold nonEmpty? at h
  split at h
  · contradiction
  next hne =>
    rw [← Option.some.inj h]
    exact ⟨by simpa using hne,by simpa using hdash⟩

theorem negative_of_readPriority {x : Binary64} (hdash : '-' ∉ field) (h : readPriority field = .ok (some x)) :
    x.negative = false := by
  unfold readPriority at h
  split at h
  · simp at h
  next y _ hread =>
    split at h
    · contradiction
    · simp only [Except.ok.injEq,Option.some.injEq] at h
      exact Binary64.negative_of_read (h ▸ hread) hdash
  · contradiction

theorem bind_eq_ok {ε α β : Type} {x : Except ε α} {f : α → Except ε β} {b : β} :
    x >>= f = .ok b ↔ ∃ a, x = .ok a ∧ f a = .ok b := by
  cases x <;> simp [bind,Except.bind]

theorem orFault_eq_ok {α : Type} {o : Option α} {e : ContextFault} {a : α} : orFault o e = .ok a ↔ o = some a := by
  cases o <;> simp [orFault]

/-- What is read in some of the fields, none of which has a dash in it. -/
structure ReadFrom (p : StatePayload) (version account app id transaction priority timestamp : List Char) : Prop where
  dashFree : ∀ field ∈ [account,app,id,transaction,priority], '-' ∉ field
  version : natural? 8 version = some p.version
  accountId : nonEmpty? account = some p.accountId
  appId : nonEmpty? app = some p.appId
  id : nonEmpty? id = p.id
  transactionId : nonEmpty? transaction = p.transactionId
  priority : readPriority priority = .ok p.priority
  timestamp : natural? 64 timestamp = some p.timestamp

theorem exists_readFrom (h : read s = .ok p) :
    ∃ version account app id transaction priority timestamp,
      p.ReadFrom version account app id transaction priority timestamp := by
  unfold read at h
  split at h
  next version parentType account app id transaction sampled priority timestamp more hpieces =>
    simp only [bind_eq_ok,orFault_eq_ok] at h
    obtain ⟨v,hversion,h⟩ := h
    split at h
    · contradiction
    · simp only [bind_eq_ok,orFault_eq_ok] at h
      obtain ⟨t,-,a,haccount,b,happ,f,-,x,hpriority,ms,htimestamp,h⟩ := h
      obtain rfl := Except.ok.inj h
      refine ⟨_,_,_,_,_,_,_,fun field hfield => ?_,hversion,haccount,happ,rfl,rfl,hpriority,htimestamp⟩
      refine notMem_of_mem_splitOn (s := trim s) ?_
      rw [hpieces]
      simp only [List.mem_cons,List.not_mem_nil,or_false] at hfield ⊢
      tauto
  · contradiction

/-- What is accepted can be written, if its priority is not too large. -/
theorem writable_of_read (h : read s = .ok p) (hp : ∀ x ∈ p.priority, x.units < Binary64.moderateUnits) :
    p.Writable := by
  obtain ⟨version,account,app,id,transaction,priority,timestamp,hread⟩ := exists_readFrom h
  constructor
  case version => exact natural?_lt hread.version
  case accountId => exact dashFree_of_nonEmpty? (hread.dashFree account (by simp)) hread.accountId
  case appId => exact dashFree_of_nonEmpty? (hread.dashFree app (by simp)) hread.appId
  case id => exact fun a ha => dashFree_of_nonEmpty? (hread.dashFree id (by simp)) (hread.id.trans ha)
  case transactionId =>
    exact fun a ha => dashFree_of_nonEmpty? (hread.dashFree transaction (by simp)) (hread.transactionId.trans ha)
  case priority =>
    intro x hx
    have hsome : readPriority priority = .ok (some x) := by rw [hread.priority,Option.mem_def.1 hx]
    exact ⟨negative_of_readPriority (hread.dashFree priority (by simp)) hsome,hp x hx⟩
  case timestamp => exact natural?_lt hread.timestamp

/-- The same entry but for its priority, which is close if there is one. -/
structure Rounds (p q : StatePayload) : Prop where
  fields : q = { p with priority := q.priority }
  priority : Option.Rel Binary64.Close p.priority q.priority

theorem Writable.rounds (hp : p.Writable) : p.Rounds p.rounded where
  fields := rfl
  priority := by
    unfold rounded
    cases hx : p.priority with
    | none => exact .none
    | some x => exact .some (hp.priority x hx).close_sixPlaces

/-- An entry that can be written is read as it was written, its priority as the number that the six places denote. And
whatever is accepted with a priority that is not too large is accepted again once it is written, with the same fields
and a close priority. -/
theorem text_roundTrip (p : StatePayload) :
    (p.Writable → read p.text.toList = .ok p.rounded ∧ p.Rounds p.rounded) ∧
      ∀ s, read s = .ok p → (∀ x ∈ p.priority, x.units < Binary64.moderateUnits) →
        read p.text.toList = .ok p.rounded ∧ p.Rounds p.rounded := by
  have hback (hp : p.Writable) := And.intro (read_text hp) hp.rounds
  exact ⟨hback,fun s h hp => hback (writable_of_read h hp)⟩

/-- What a later version wrote with other spellings: signs, zeros in front, a flag in letters, an exponent, a field
after the last one and blanks around. -/
def laterVersion : List Char := " +1-02-acc 1-app---true-+.0625e1-0007-more ".toList

def ofLaterVersion : StatePayload where
  version := 1
  parentType := .mobile
  accountId := "acc 1"
  appId := "app"
  sampled := some true
  priority := some (.ofDecimal 625 3)
  timestamp := 7

theorem text_roundTrip_laterVersion :
    read laterVersion = .ok ofLaterVersion ∧ (∀ x ∈ ofLaterVersion.priority, x.units < Binary64.moderateUnits) ∧
      ofLaterVersion.text = "1-2-acc 1-app---1-0.625000-7" ∧
      read ofLaterVersion.text.toList = .ok ofLaterVersion := by
  have hread : read laterVersion = .ok ofLaterVersion := by decide +kernel
  have hsmall : ∀ x ∈ ofLaterVersion.priority, x.units < Binary64.moderateUnits := by decide +kernel
  have hrounded : ofLaterVersion.rounded = ofLaterVersion := by decide +kernel
  have h := ((text_roundTrip ofLaterVersion).2 laterVersion hread hsmall).1
  rw [hrounded] at h
  exact ⟨hread,hsmall,by decide +kernel,h⟩

end TraceEngine.StatePayload
