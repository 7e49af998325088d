import TraceEngine.Binary64.Arithmetic
import TraceEngine.Identifier

/-!
Keeping a given share of all traces. The decision rests on the lower half of the trace id alone, so that all
services with the same ratio keep the same traces.
-/
namespace TraceEngine

structure RatioSampler where
  ratio : Binary64
  isFraction : ratio.isFraction = true
  deriving DecidableEq

namespace RatioSampler

def of? (ratio : Binary64) : Option RatioSampler :=
  if h : ratio.isFraction = true then some ⟨ratio,h⟩ else none

@[simp] theorem of?_isSome (ratio : Binary64) : (of? ratio).isSome = ratio.isFraction := by
  unfold of?
  split <;> simp_all

/-- The ratio's share of the largest number of 64 bits, which is `2 ^ 64` as a floating-point number. -/
def bound (r : RatioSampler) : Nat := ((r.ratio.mul (.ofNat (Nat.pow 2 64 - 1))).ceil).toNatural 64

/-- The lower halves below the bound are kept. No bound of 64 bits is above them all, so the ratio one has none. -/
def keeps (r : RatioSampler) (id : TraceId) : Bool := r.ratio.isAtLeastOne || decide (id.lowerHalf < r.bound)

end RatioSampler

end TraceEngine
