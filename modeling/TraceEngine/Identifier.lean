import TraceEngine.Text.Hex

/-!
Identifiers of a fixed number of bytes, written as two hexadecimal digits for each byte. A shorter text
is read as if zeros stood in front of it. The identifier zero stands for no identifier.
-/
namespace TraceEngine

structure Identifier (bytes : Nat) where
  value : BitVec (8 * bytes)
  deriving DecidableEq

/-- Names a trace, in all the services that take part in it. -/
abbrev TraceId := Identifier 16

/-- Names a transaction or one of its segments. -/
abbrev SpanId := Identifier 8

inductive IdentifierFault
  | empty
  | tooLong (length limit : Nat)
  | notHexadecimal
  deriving DecidableEq, Repr

def IdentifierFault.message : IdentifierFault → String
  | .empty => "identifier is empty"
  | .tooLong length limit => s!"identifier has {length} hex digits, at most {limit} are allowed"
  | .notHexadecimal => "identifier contains a non hex character"

namespace Identifier

variable {bytes : Nat}

def toNat (id : Identifier bytes) : Nat := id.value.toNat

/-- Keeps the low bytes of the number. -/
def ofNat (n : Nat) : Identifier bytes := ⟨BitVec.ofNat _ n⟩

def isValid (id : Identifier bytes) : Bool := decide (id.toNat ≠ 0)

def digits (id : Identifier bytes) : List Char := Text.fixedHex (2 * bytes) id.toNat

@[simp] theorem length_digits (id : Identifier bytes) : id.digits.length = 2 * bytes := by
  simp [digits]

def text (id : Identifier bytes) : String := String.ofList id.digits

/-- The length is judged before the characters, and counted in bytes of the text. `readByHalves` puts the digits into
the bytes one by one and is proved to be the same. -/
def read (s : String) : Except IdentifierFault (Identifier bytes) :=
  if s.isEmpty then .error .empty
  else if 2 * bytes < s.utf8ByteSize then .error (.tooLong s.utf8ByteSize (2 * bytes))
  else
    match Text.hexNumber? s.toList with
    | some n => .ok (ofNat n)
    | none => .error .notHexadecimal

/-- The lowest `count` bytes, the most significant first. -/
def lowBytes : Nat → Nat → List Nat
  | 0, _ => []
  | count + 1, n => lowBytes count (n / 256) ++ [n % 256]

def toBytes (id : Identifier bytes) : List Nat := lowBytes bytes id.toNat

def ofBytes (values : List Nat) : Identifier bytes := ofNat (values.foldl (256 * · + ·) 0)

instance : LE (Identifier bytes) := ⟨fun a b => a.toNat ≤ b.toNat⟩

instance (a b : Identifier bytes) : Decidable (a ≤ b) := inferInstanceAs (Decidable (a.toNat ≤ b.toNat))

end Identifier

/-- The half of a trace id that ratio sampling looks at. -/
def TraceId.lowerHalf (id : TraceId) : Nat := id.toNat % Nat.pow 2 64

end TraceEngine
