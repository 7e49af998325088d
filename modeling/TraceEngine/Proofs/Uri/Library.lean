import TraceEngine.Proofs.Text.Numerals
import TraceEngine.Segment.Fault

/-! Addresses recorded with any library that keeps to what is said of it. What is asked of the library is
little: what each of its functions is said to do, how an address is written, which characters stand in
which part, and that what it made reads as what it is. -/
namespace TraceEngine.Uri

open Text

/-- Nothing but scheme, host, port and path. -/
structure Parts.IsBare (p : Parts) : Prop where
  username : p.username = []
  password : p.password = none
  query : p.query = none
  fragment : p.fragment = none

structure Parts.SameAddress (p q : Parts) : Prop where
  scheme : p.scheme = q.scheme
  host : p.host = q.host
  port : p.port = q.port
  path : p.path = q.path

def Parts.bare (p : Parts) : Parts := { p with username := [], password := none, query := none, fragment := none }

/-- The address of a file whose path begins with a drive: a letter and a colon or a bar. -/
def Parts.onDrive (p : Parts) : Bool :=
  decide (p.scheme = "file".toList) && isDrive ((p.path.drop 1).takeWhile (· != '/'))

theorem Parts.mem_ledBy {mark c : Char} {part : Option (List Char)} (h : c ∈ ledBy mark part) :
    c = mark ∨ ∃ s ∈ part, c ∈ s := by
  cases part with
  | none => simp [ledBy] at h
  | some s => simpa [ledBy] using h

theorem Parts.SameAddress.bare_eq {p q : Parts} (h : p.SameAddress q) : p.bare = q.bare := by
  rw [Parts.bare,Parts.bare,h.scheme,h.host,h.port,h.path]

theorem Parts.isBare_bare (p : Parts) : p.bare.IsBare := ⟨rfl,rfl,rfl,rfl⟩

theorem Parts.IsBare.text_eq {p : Parts} (h : p.IsBare) : p.text =
    p.scheme ++ "://".toList ++ p.host.getD [] ++ ledBy ':' (p.port.map decimal) ++ p.path := by
  simp [Parts.text,authorityText,credentialsText,ledBy,h.username,h.password,h.query,h.fragment]

/-- A character that cannot stand in a host. -/
def endsHost (c : Char) : Bool := "/?#@\\".toList.contains c

namespace Library

variable {α : Type} {L : Library α} {u v w : α} {s : String}

/-- The addresses that come from a library: what it reads, and what is left when parts are taken out. -/
inductive Made (L : Library α) : α → Prop
  | read {s : String} {u : α} (h : L.parse s = .ok u) : Made L u
  | withoutUsername {u v : α} (hu : Made L u) (h : L.withoutUsername? u = some v) : Made L v
  | withoutPassword {u v : α} (hu : Made L u) (h : L.withoutPassword? u = some v) : Made L v
  | withoutQuery {u : α} (hu : Made L u) : Made L (L.withoutQuery u)
  | withoutFragment {u : α} (hu : Made L u) : Made L (L.withoutFragment u)

/-- No host is read, which a library may say itself. -/
def Hostless (L : Library α) (s : String) : Prop :=
  L.parse s = .error .emptyHost ∨ ∃ u, L.parse s = .ok u ∧ (L.parts u).hasHost = false

/-- What is said of a library. A part that is taken out leaves the others as they are, and credentials are
taken out of all addresses with a host but those of files, which never have any. An address is read
from its text again, but before a drive in the path of a file no host is read. -/
structure Lawful (L : Library α) : Prop where
  withoutUsername : ∀ {u v}, L.withoutUsername? u = some v → L.parts v = { L.parts u with username := [] }
  withoutPassword : ∀ {u v}, L.withoutPassword? u = some v → L.parts v = { L.parts u with password := none }
  withoutQuery : ∀ {u}, (L.parts u).hasHost = true → L.parts (L.withoutQuery u) = { L.parts u with query := none }
  withoutFragment : ∀ {u}, (L.parts u).hasHost = true →
    L.parts (L.withoutFragment u) = { L.parts u with fragment := none }
  removable : ∀ {u}, L.Made u → (L.parts u).hasHost = true → (L.parts u).scheme ≠ "file".toList →
    (L.withoutUsername? u).isSome ∧ (L.withoutPassword? u).isSome
  file : ∀ {u}, L.Made u → (L.parts u).scheme = "file".toList →
    (L.parts u).username = [] ∧ (L.parts u).password = none
  text : ∀ {u}, L.Made u → (L.parts u).hasHost = true → (L.text u).toList = (L.parts u).text
  schemeChars : ∀ {u}, L.Made u → ∀ c ∈ (L.parts u).scheme, isSchemeChar c = true
  hostChars : ∀ {u}, L.Made u → ∀ h ∈ (L.parts u).host, ∀ c ∈ h, endsHost c = false
  pathChars : ∀ {u}, L.Made u → ∀ c ∈ (L.parts u).path, c ≠ '?' ∧ c ≠ '#'
  reread : ∀ {u}, L.Made u → (L.parts u).hasHost = true → (L.parts u).onDrive = false →
    ∃ v, L.parse (L.text u) = .ok v ∧ L.parts v = L.parts u
  drive : ∀ {u}, L.Made u → (L.parts u).hasHost = true → (L.parts u).onDrive = true → L.Hostless (L.text u)

theorem record_eq_ok_iff : L.record s = .ok u ↔
    ∃ v, L.parse s = .ok v ∧ (L.parts v).hasHost = true ∧ L.cleared v = u := by
  unfold record
  cases L.parse s with
  | error cause => simp
  | ok v => cases hhost : (L.parts v).hasHost <;> simp [hhost]

theorem record_of_hostless (h : L.Hostless s) : L.record s = .error (.badUri s .emptyHost) := by
  rcases h with h | ⟨u,h,hhost⟩
  · rw [record,h]
  · simp [record,h,hhost]

/-- Where credentials are not taken out there are none. -/
theorem Lawful.no_credentials (hL : L.Lawful) (hu : L.Made u) (hhost : (L.parts u).hasHost = true)
    (h : L.withoutUsername? u = none ∨ L.withoutPassword? u = none) :
    (L.parts u).username = [] ∧ (L.parts u).password = none := by
  refine hL.file hu (by_contra fun hscheme => ?_)
  obtain ⟨hname,hword⟩ := hL.removable hu hhost hscheme
  rcases h with h | h
  · simp [h] at hname
  · simp [h] at hword

theorem Lawful.parts_username (hL : L.Lawful) (hu : L.Made u) (hhost : (L.parts u).hasHost = true) :
    L.parts ((L.withoutUsername? u).getD u) = { L.parts u with username := [] } := by
  cases hv : L.withoutUsername? u with
  | some v => exact hL.withoutUsername hv
  | none => rw [Option.getD_none,← (hL.no_credentials hu hhost (.inl hv)).1]

theorem Lawful.parts_password (hL : L.Lawful) (hu : L.Made u) (hhost : (L.parts u).hasHost = true) :
    L.parts ((L.withoutPassword? u).getD u) = { L.parts u with password := none } := by
  cases hv : L.withoutPassword? u with
  | some v => exact hL.withoutPassword hv
  | none => rw [Option.getD_none,← (hL.no_credentials hu hhost (.inr hv)).2]

theorem Made.getD {without? : α → Option α} (hu : L.Made u) (h : ∀ {v}, without? u = some v → L.Made v) :
    L.Made ((without? u).getD u) := by
  cases hv : without? u with
  | none => exact hu
  | some v => exact h hv

theorem Made.getD_username (hu : L.Made u) : L.Made ((L.withoutUsername? u).getD u) := hu.getD hu.withoutUsername

theorem Made.cleared (hu : L.Made u) : L.Made (L.cleared u) :=
  have hname := hu.getD_username
  .withoutFragment (.withoutQuery (hname.getD hname.withoutPassword))

theorem Lawful.parts_withoutTail (hL : L.Lawful) (hhost : (L.parts u).hasHost = true) :
    L.parts (L.withoutFragment (L.withoutQuery u)) = { L.parts u with query := none, fragment := none } := by
  have hquery := hL.withoutQuery hhost
  rw [hL.withoutFragment (by rw [hquery]; exact hhost),hquery]

/-- Nothing but scheme, host, port and path is left of an address, whichever it is. -/
theorem Lawful.parts_cleared (hL : L.Lawful) (hu : L.Made u) (hhost : (L.parts u).hasHost = true) :
    L.parts (L.cleared u) = (L.parts u).bare := by
  have hname := hL.parts_username hu hhost
  have hword := hL.parts_password hu.getD_username (by rw [hname]; exact hhost)
  rw [Library.cleared,hL.parts_withoutTail (by rw [hword,hname]; exact hhost),hword,hname]
  rfl

end Library

end TraceEngine.Uri
