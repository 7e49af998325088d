/-!
Natural numbers in decimal text: reading under an upper limit, with the cause of a refusal, and writing.
-/
namespace TraceEngine.Text

inductive NaturalFault
  | empty
  | badDigit
  | tooLarge
  deriving DecidableEq, Repr

def NaturalFault.message : NaturalFault → String
  | .empty => "cannot parse integer from empty string"
  | .badDigit => "invalid digit found in string"
  | .tooLarge => "number too large to fit in target type"

def digit? (c : Char) : Option Nat :=
  if '0' ≤ c ∧ c ≤ '9' then some (c.toNat - 48) else none

/-- Reads on from the value of the digits before; the first fault from the left is reported. -/
def readDigits (limit : Nat) : Nat → List Char → Except NaturalFault Nat
  | value, [] => .ok value
  | value, c :: rest =>
    match digit? c with
    | none => .error .badDigit
    | some d => if limit < value * 10 + d then .error .tooLarge else readDigits limit (value * 10 + d) rest

/-- Reads a number of at most `limit`; a plus sign may stand in front of the digits. -/
def readNatural (limit : Nat) : List Char → Except NaturalFault Nat
  | [] => .error .empty
  | '+' :: rest => if rest.isEmpty then .error .badDigit else readDigits limit 0 rest
  | s => readDigits limit 0 s

def decimal (n : Nat) : List Char := Nat.toDigits 10 n

def paddedDecimal (width n : Nat) : List Char :=
  let digits := decimal n
  List.replicate (width - digits.length) '0' ++ digits

/-- The largest number of 8, 16, 32 or 64 bits. -/
def maxOfBits (bits : Nat) : Nat := Nat.pow 2 bits - 1

end TraceEngine.Text
