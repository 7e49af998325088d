import TraceEngine.Time

/-!
Keeping about as many transactions in each period as a target asks for. In the first period the first ones are
kept. In a later period each is kept with the chance that fits the number seen in the period before; once the
target is reached the chance falls with every one that is kept.
-/
namespace TraceEngine

/-- Whether a transaction is kept beyond the target, from the target, the number already kept, and a number drawn
below the number already seen. -/
abbrev Thinning := Nat → Nat → Nat → Bool

/-- The chance falls exponentially and ends at twice the target. -/
def Thinning.exponential : Thinning := fun target kept drawn =>
  let t := target.toUInt64.toFloat
  let threshold := Float.pow t (t / kept.toUInt64.toFloat) - Float.pow t 0.5
  drawn.toUInt64.toFloat < threshold

structure AdaptiveSampler where
  target : Nat
  period : Time
  thinning : Thinning := .exponential

structure AdaptiveState where
  periodStart : Time
  firstCycle : Bool := true
  seen : Nat := 0
  seenLast : Nat := 0
  kept : Nat := 0
  deriving DecidableEq, Repr

namespace AdaptiveSampler

def shortestPeriod : Time := Nat.pow 10 6

/-- A period of no length would begin anew with every call. -/
def make (target : Nat) (period : Time) : AdaptiveSampler where
  target := target
  period := max period shortestPeriod

/-- Begins a new period if the current one is over. The number of periods that went by is counted in 32 bits. -/
def renew (a : AdaptiveSampler) (now : Time) (s : AdaptiveState) : AdaptiveState :=
  let elapsed := now - s.periodStart
  if elapsed < a.period then s
  else
    let periods := elapsed / a.period % Nat.pow 2 32
    { periodStart := s.periodStart + a.period * periods
      firstCycle := false
      seenLast := if 1 < periods then 0 else s.seen }

/-- The bound under which a number is drawn for the next decision, if one is. -/
def bound? (a : AdaptiveSampler) (now : Time) (s : AdaptiveState) : Option Nat :=
  let s := a.renew now s
  if a.target = 0 ∨ s.firstCycle then none
  else if s.kept < a.target then if s.seenLast = 0 then none else some s.seenLast
  else some s.seen

def decides (a : AdaptiveSampler) (s : AdaptiveState) (drawn : Nat) : Bool :=
  if a.target = 0 then false
  else if s.firstCycle then decide (s.kept < a.target)
  else if s.kept < a.target then decide (s.seenLast = 0 ∨ drawn < a.target)
  else a.thinning a.target s.kept drawn

def sampleAt (a : AdaptiveSampler) (now : Time) (drawn : Nat) (s : AdaptiveState) : Bool × AdaptiveState :=
  let s := a.renew now s
  let sampled := a.decides s drawn
  (sampled,{ s with kept := s.kept + sampled.toNat, seen := s.seen + 1 })

/-- Decides on a transaction with a number drawn from a source, if one is needed. -/
def sampleFrom {σ : Type} (a : AdaptiveSampler) (draw : Nat → σ → Nat × σ) (now : Time) (s : AdaptiveState)
    (source : σ) : Bool × AdaptiveState × σ :=
  match a.bound? now s with
  | none =>
    let (sampled,s) := a.sampleAt now 0 s
    (sampled,s,source)
  | some upper =>
    let (drawn,source) := draw upper source
    let (sampled,s) := a.sampleAt now drawn s
    (sampled,s,source)

def sampleMany {σ : Type} (a : AdaptiveSampler) (draw : Nat → σ → Nat × σ) (now : Time) :
    Nat → AdaptiveState → σ → List Bool × AdaptiveState × σ
  | 0, s, source => ([],s,source)
  | n + 1, s, source =>
    let (sampled,s,source) := a.sampleFrom draw now s source
    let (rest,s,source) := sampleMany a draw now n s source
    (sampled :: rest,s,source)

def text (a : AdaptiveSampler) (s : AdaptiveState) : String :=
  s!"AdaptiveSampler \x7b target: {a.target}, period: {Time.text a.period}, seen: {s.seen}, " ++
  s!"sampled_count: {s.kept} \x7d"

end AdaptiveSampler

end TraceEngine
