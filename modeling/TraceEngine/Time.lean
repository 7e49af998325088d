import TraceEngine.Binary64.Arithmetic
import TraceEngine.Text.Natural

/-!
Points in time and durations, in whole nanoseconds: from seconds, to milliseconds, and as text. There is a longest
duration; sums and differences that must be durations are checked.
-/
namespace TraceEngine

/-- Nanoseconds. -/
abbrev Time := Nat

namespace Time

def second : Time := Nat.pow 10 9

def ofSeconds (n : Nat) : Time := n * second

def longest : Time := Nat.pow 2 64 * second - 1

def checkedAdd (a b : Time) : Option Time := if a + b ≤ longest then some (a + b) else none

def checkedSub (a b : Nat) : Option Nat := if b ≤ a then some (a - b) else none

inductive SecondsFault
  | negative
  | tooLarge
  deriving DecidableEq, Repr

def SecondsFault.message : SecondsFault → String
  | .negative => "cannot convert float seconds to Duration: value is negative"
  | .tooLarge => "cannot convert float seconds to Duration: value is either too big or NaN"

def ofBinary64 (x : Binary64) : Except SecondsFault Time :=
  if x.negative && !x.isNaN && !x.isZero then .error .negative
  else if x.isNaN || decide (Nat.pow 2 64 * Binary64.unitsPerOne ≤ x.units) then .error .tooLarge
  else .ok (Binary64.roundHalfEven (x.units * second) Binary64.unitsPerOne)

/-- Milliseconds as a floating-point number. The count of nanoseconds is rounded first, then the quotient. -/
def millis (t : Time) : Binary64 := (Binary64.ofNat t).divNat (Nat.pow 10 6)

/-- A decimal number of units, each of `10 ^ places` nanoseconds, without zeros at its end. -/
def unitText (t : Time) (places : Nat) (unit : String) : String :=
  let fraction := ((Text.paddedDecimal places (t % Nat.pow 10 places)).reverse.dropWhile (· = '0')).reverse
  let point : List Char := if places = 0 ∨ fraction.isEmpty then [] else '.' :: fraction
  String.ofList (Text.decimal (t / Nat.pow 10 places) ++ point) ++ unit

/-- Text in the largest unit of which there is at least one. -/
def text (t : Time) : String :=
  if Nat.pow 10 9 ≤ t then unitText t 9 "s"
  else if Nat.pow 10 6 ≤ t then unitText t 6 "ms"
  else if Nat.pow 10 3 ≤ t then unitText t 3 "µs"
  else unitText t 0 "ns"

end Time

/-- Whether a difference below zero may be cut off at zero where the program does so. -/
inductive Cutoff
  | allowed
  | refused
  deriving DecidableEq, Repr

def Cutoff.sub : Cutoff → Nat → Nat → Option Nat
  | .allowed, a, b => some (a - b)
  | .refused, a, b => Time.checkedSub a b

end TraceEngine
