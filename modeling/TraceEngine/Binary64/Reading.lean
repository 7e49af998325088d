import TraceEngine.Binary64.Basic
import TraceEngine.Text.Natural

/-!
Floating-point numbers in decimal text: reading, rounded to the nearest number.
-/
namespace TraceEngine.Binary64

open Text

inductive ReadingFault
  | empty
  | badLiteral
  deriving DecidableEq, Repr

def ReadingFault.message : ReadingFault → String
  | .empty => "cannot parse float from empty string"
  | .badLiteral => "invalid float literal"

def digitsValue (digits : List Char) : Nat :=
  digits.foldl (fun n c => 10 * n + (c.toNat - 48)) 0

def isDigit (c : Char) : Bool := (digit? c).isSome

/-- The magnitude nearest to `digits * 10 ^ exponent`. Beyond `10 ^ 400` all is infinite and below
`10 ^ (-400)` all is zero, so that no power larger than the text itself is ever formed. -/
def ofScientific (negative : Bool) (digits : Nat) (exponent : Int) : Binary64 :=
  let leading := exponent + (decimal digits).length
  if digits = 0 ∨ leading < -400 then ofCode negative 0
  else if 400 < leading then infinity negative
  else if 0 ≤ exponent then ofQuotient negative (digits * Nat.pow 10 exponent.toNat) 1
  else ofQuotient negative digits (Nat.pow 10 (-exponent).toNat)

/-- The exponent after the digits: nothing, or a letter e, a sign if any, and digits. -/
def readExponent? : List Char → Option Int
  | [] => some 0
  | e :: rest =>
    if e = 'e' ∨ e = 'E' then
      match rest with
      | '-' :: digits => if !digits.isEmpty && digits.all isDigit then some (-(digitsValue digits : Int)) else none
      | '+' :: digits => if !digits.isEmpty && digits.all isDigit then some (digitsValue digits) else none
      | digits => if !digits.isEmpty && digits.all isDigit then some (digitsValue digits) else none
    else none

/-- Digits with a point anywhere among them, at least one digit, and an exponent. -/
def readMagnitude? (s : List Char) : Option (Nat × Int) :=
  let whole := s.takeWhile isDigit
  let rest := s.dropWhile isDigit
  let (fraction,rest) : List Char × List Char :=
    match rest with
    | '.' :: r => (r.takeWhile isDigit,r.dropWhile isDigit)
    | r => ([],r)
  if whole.isEmpty && fraction.isEmpty then none
  else (readExponent? rest).map fun e => (digitsValue (whole ++ fraction),e - fraction.length)

def readUnsigned? (negative : Bool) (s : List Char) : Option Binary64 :=
  let name := s.map Char.toLower
  if name = "inf".toList ∨ name = "infinity".toList then some (infinity negative)
  else if name = "nan".toList then some nan
  else (readMagnitude? s).map fun (digits,exponent) => ofScientific negative digits exponent

def read (s : List Char) : Except ReadingFault Binary64 :=
  let found :=
    match s with
    | '-' :: rest => readUnsigned? true rest
    | '+' :: rest => readUnsigned? false rest
    | rest => readUnsigned? false rest
  match s, found with
  | [], _ => .error .empty
  | _, none => .error .badLiteral
  | _, some x => .ok x

end TraceEngine.Binary64
