/-!
Floating-point numbers of 64 bits, exactly. A number is a sign and a code, the code being exponent and
fraction read as one number; codes stand in the order of the magnitudes. A finite magnitude is a whole
number of units of `2 ^ (-1074)`, so arithmetic is arithmetic of naturals with one rounding at the end.
-/
namespace TraceEngine

structure Binary64 where
  bits : BitVec 64
  deriving DecidableEq

namespace Binary64

def negative (x : Binary64) : Bool := x.bits.msb

def code (x : Binary64) : Nat := x.bits.toNat % Nat.pow 2 63

/-- The code of infinity; every code above it is no number. -/
def infinityCode : Nat := 0x7ff * Nat.pow 2 52

def isNaN (x : Binary64) : Bool := decide (infinityCode < x.code)

def isInfinite (x : Binary64) : Bool := decide (x.code = infinityCode)

def isZero (x : Binary64) : Bool := decide (x.code = 0)

def ofCode (negative : Bool) (code : Nat) : Binary64 :=
  ⟨BitVec.ofNat 64 (code + if negative then Nat.pow 2 63 else 0)⟩

def nan : Binary64 := ofCode false (0x7ff8 * Nat.pow 2 48)

def infinity (negative : Bool) : Binary64 := ofCode negative infinityCode

def unitsPerOne : Nat := Nat.pow 2 1074

/-- The units of the magnitude that has a finite code. -/
def unitsOfCode (code : Nat) : Nat :=
  if code < Nat.pow 2 52 then code else (Nat.pow 2 52 + code % Nat.pow 2 52) * Nat.pow 2 (code / Nat.pow 2 52 - 1)

def units (x : Binary64) : Nat := unitsOfCode x.code

/-- The quotient as a whole number: the nearest, and of two nearest the even one. -/
def roundHalfEven (num den : Nat) : Nat :=
  let q := num / den
  let r := num % den
  if 2 * r < den then q else if den < 2 * r then q + 1 else q + q % 2

/-- The code of the number nearest to a quotient of units. The significand keeps 53 digits, and one
that rounds up to `2 ^ 53` carries into the exponent by itself, for the code is their sum. -/
def codeOfQuotient (num den : Nat) : Nat :=
  let dropped := Nat.log2 (num / den) - 52
  min infinityCode (dropped * Nat.pow 2 52 + roundHalfEven num (den * Nat.pow 2 dropped))

def ofQuotient (negative : Bool) (num den : Nat) : Binary64 :=
  ofCode negative (codeOfQuotient (num * unitsPerOne) den)

def ofNat (n : Nat) : Binary64 := ofQuotient false n 1

/-- The rational `n / 10 ^ places`, rounded. -/
def ofDecimal (n places : Nat) : Binary64 := ofQuotient false n (Nat.pow 10 places)

def zero : Binary64 := ofCode false 0

def one : Binary64 := ofCode false (1023 * Nat.pow 2 52)

end Binary64

end TraceEngine
