import TraceEngine.Binary64.Basic
import TraceEngine.Identifier

/-!
A source of pseudo-random words, and the draws that are made from it.
-/
namespace TraceEngine

structure Entropy where
  state : UInt64

namespace Entropy

/-- The state advances by a fixed odd step, and the word is a mixture of its bits. -/
def next (e : Entropy) : UInt64 × Entropy :=
  let state := e.state + 0x9e3779b97f4a7c15
  let a := (state ^^^ (state >>> 30)) * 0xbf58476d1ce4e5b9
  let b := (a ^^^ (a >>> 27)) * 0x94d049bb133111eb
  (b ^^^ (b >>> 31),⟨state⟩)

def below (upper : Nat) (e : Entropy) : Nat × Entropy :=
  let (word,e) := e.next
  (if upper = 0 then 0 else word.toNat % upper,e)

/-- A fraction from zero on and below one. -/
def unit (e : Entropy) : Binary64 × Entropy :=
  let (word,e) := e.next
  (Binary64.ofQuotient false (word.toNat / Nat.pow 2 11) (Nat.pow 2 53),e)

def spanId (e : Entropy) : SpanId × Entropy :=
  let (word,e) := e.next
  (if word = 0 then .ofNat 1 else .ofNat word.toNat,e)

/-- A trace id: 32 bits of the time in seconds, 32 zeros, and 64 random bits. -/
def traceId (seconds : Nat) (e : Entropy) : TraceId × Entropy :=
  let (word,e) := e.next
  (.ofNat (seconds % Nat.pow 2 32 * Nat.pow 2 96 + word.toNat),e)

def times {α : Type} (draw : Entropy → α × Entropy) : Nat → Entropy → List α × Entropy
  | 0, e => ([],e)
  | n + 1, e =>
    let (a,e) := draw e
    let (rest,e) := times draw n e
    (a :: rest,e)

end Entropy

end TraceEngine
