import TraceEngine.Binary64.Basic

/-!
Products, scaling by whole numbers, rounding to whole numbers and to decimal places, and the numbers from zero to one.
-/
namespace TraceEngine.Binary64

/-- Replaces a finite magnitude by a quotient of units, rounded; infinities and NaN stay. -/
def mapUnits (x : Binary64) (num : Nat → Nat) (den : Nat) : Binary64 :=
  if infinityCode ≤ x.code then x else ofCode x.negative (codeOfQuotient (num x.units) den)

def mulNat (x : Binary64) (n : Nat) : Binary64 := x.mapUnits (· * n) 1

def divNat (x : Binary64) (n : Nat) : Binary64 := x.mapUnits id n

def mul (x y : Binary64) : Binary64 :=
  let negative := x.negative != y.negative
  if x.isNaN || y.isNaN then nan
  else if x.isInfinite || y.isInfinite then if x.isZero || y.isZero then nan else infinity negative
  else ofCode negative (codeOfQuotient (x.units * y.units) unitsPerOne)

def round (x : Binary64) : Binary64 :=
  x.mapUnits (fun u => (u + unitsPerOne / 2) / unitsPerOne * unitsPerOne) 1

def ceil (x : Binary64) : Binary64 :=
  x.mapUnits (fun u => (if x.negative then u else u + (unitsPerOne - 1)) / unitsPerOne * unitsPerOne) 1

/-- The whole part as a number of some bits, the largest one if it is above all of them. A negative number and NaN
give zero. -/
def toNatural (bits : Nat) (x : Binary64) : Nat :=
  if x.isNaN || x.negative then 0 else min (x.units / unitsPerOne) (Nat.pow 2 bits - 1)

def roundPlaces (places : Nat) (x : Binary64) : Binary64 :=
  ((x.mulNat (Nat.pow 10 places)).round).divNat (Nat.pow 10 places)

/-- At least zero and at most one, which also holds of the negative zero. -/
def isFraction (x : Binary64) : Bool :=
  x.isZero || (!x.negative && decide (x.code ≤ one.code))

def isAtLeastOne (x : Binary64) : Bool := !x.negative && decide (one.code ≤ x.code ∧ x.code ≤ infinityCode)

/-- The least whole number that is not below `2 ^ digits` times the magnitude. -/
def ceilScaled (x : Binary64) (digits : Nat) : Nat :=
  (x.units * Nat.pow 2 digits + (unitsPerOne - 1)) / unitsPerOne

end TraceEngine.Binary64
