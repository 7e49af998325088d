import TraceEngine.Text.Hex

/-!
Percent encoding: a byte as a percent sign and two hexadecimal digits.
-/
namespace TraceEngine.Uri

open Text

def bytesOf (c : Char) : List Nat := (String.utf8EncodeChar c).map (·.toNat)

/-- Digits in upper case are written. -/
def encodeByte (b : Nat) : List Char := '%' :: (fixedHex 2 b).map Char.toUpper

/-- Encodes the characters of a set, byte by byte, and keeps all others. -/
def percentEncode (inSet : Char → Bool) (s : List Char) : List Char :=
  s.flatMap fun c => if inSet c then (bytesOf c).flatMap encodeByte else [c]

theorem percentEncode_of_all_not {inSet : Char → Bool} {s : List Char} (h : ∀ c ∈ s, inSet c = false) :
    percentEncode inSet s = s := by
  induction s with
  | nil => rfl
  | cons c rest ih =>
    have hc := h c (by simp)
    have hr := ih fun x hx => h x (by simp [hx])
    simp only [percentEncode] at hr
    simp [percentEncode,hc,hr]

/-- The bytes of a text, where a percent sign with two hexadecimal digits of either case is one byte. -/
def percentDecode : List Char → List Nat
  | '%' :: a :: b :: rest =>
    match hexValue? a, hexValue? b with
    | some high, some low => (16 * high + low) :: percentDecode rest
    | _, _ => 0x25 :: percentDecode (a :: b :: rest)
  | c :: rest => bytesOf c ++ percentDecode rest
  | [] => []

def isControl (c : Char) : Bool := decide (c.toNat < 0x20 ∨ 0x7f ≤ c.toNat)

def isPathEncoded (c : Char) : Bool := isControl c || " \"#<>?`\x7b\x7d".toList.contains c

def isCredentialEncoded (c : Char) : Bool := isPathEncoded c || "/:;=@[\\]^|".toList.contains c

def isFragmentEncoded (c : Char) : Bool := isControl c || " \"<>`".toList.contains c

end TraceEngine.Uri
