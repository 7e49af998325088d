import TraceEngine.Binary64.Basic
import TraceEngine.Text.Natural

/-!
Floating-point numbers as decimal text: with a fixed number of places, and with the fewest digits
that still determine the number.
-/
namespace TraceEngine.Binary64

open Text

def signed (x : Binary64) (magnitude : List Char) : String :=
  if x.isNaN then "NaN"
  else
    let body := if x.isInfinite then "inf".toList else magnitude
    String.ofList (if x.negative then '-' :: body else body)

def fixed (places : Nat) (x : Binary64) : String :=
  let n := roundHalfEven (x.units * Nat.pow 10 places) unitsPerOne
  x.signed (decimal (n / Nat.pow 10 places) ++ '.' :: paddedDecimal places (n % Nat.pow 10 places))

structure Scientific where
  digits : Nat
  exponent : Int
  deriving DecidableEq, Repr

def leadingExponent (units : Nat) : Int :=
  ((decimal (units * Nat.pow 10 400 / unitsPerOne)).length : Int) - 401

/-- The decimal of `count` digits that is nearest to the magnitude with the code among those from which
the code is read back, if there is one. The numbers read back lie between the midpoints to the two
neighbours; the midpoints belong to them if the code is even. -/
def ofDigitCount? (code count : Nat) : Option Scientific :=
  let exponent := leadingExponent (unitsOfCode code) - (count : Int) + 1
  let step := Nat.pow 10 exponent.toNat * (2 * unitsPerOne)
  let scale := Nat.pow 10 (-exponent).toNat
  let value := 2 * unitsOfCode code * scale
  let low := (unitsOfCode (code - 1) + unitsOfCode code) * scale
  let high := (unitsOfCode code + unitsOfCode (code + 1)) * scale
  let readsBack (n : Nat) : Bool :=
    if code % 2 = 0 then decide (low ≤ n * step ∧ n * step ≤ high)
    else decide (low < n * step ∧ n * step < high)
  let below := value / step
  let above := below + 1
  if readsBack below && (!readsBack above || decide (value - below * step < above * step - value)) then
    some ⟨below,exponent⟩
  else if readsBack above then some ⟨above,exponent⟩
  else none

/-- The shortest decimal from which a positive finite code is read back; 17 digits always suffice. -/
def shortest (code : Nat) : Scientific :=
  ((List.range 17).findSome? fun n => ofDigitCount? code (n + 1)).getD ⟨0,0⟩

/-- The digits without the zeros at the end, and the exponent of the leading one. -/
def Scientific.normal (d : Scientific) : List Char × Int :=
  let digits := decimal d.digits
  ((digits.reverse.dropWhile (· = '0')).reverse,d.exponent + digits.length - 1)

/-- Positional between `10 ^ (-4)` and `10 ^ 16`, with a place after the point in any case; scientific
elsewhere. -/
def Scientific.text (d : Scientific) : List Char :=
  let (digits,exponent) := d.normal
  if 16 ≤ exponent ∨ exponent < -4 then
    let power : List Char := if exponent < 0 then '-' :: decimal (-exponent).toNat else decimal exponent.toNat
    match digits with
    | first :: second :: rest => first :: '.' :: second :: rest ++ 'e' :: power
    | digits => digits ++ 'e' :: power
  else if exponent < 0 then "0.".toList ++ List.replicate (-exponent - 1).toNat '0' ++ digits
  else
    let whole := exponent.toNat + 1
    let fraction := digits.drop whole
    digits.take whole ++ List.replicate (whole - digits.length) '0' ++ '.' ::
      (if fraction.isEmpty then ['0'] else fraction)

/-- The fewest digits that determine the number. -/
def text (x : Binary64) : String :=
  x.signed (if x.isZero then "0.0".toList else (shortest x.code).text)

end TraceEngine.Binary64
