import TraceEngine.Sampling.Strategy

/-!
Whether a transaction is sampled, and the priority it gets. A decision is fixed by a rule, inherited from the
service before, or left to an adaptive sampler; what is left to chance is an input.
-/
namespace TraceEngine

/-- A priority that was given, or one that was drawn: a millionth part of one, with one added if sampled. -/
inductive Priority
  | given (x : Binary64)
  | drawn (sampled : Bool) (millionths : Fin 1000000)
  deriving DecidableEq

namespace Priority

def places : Nat := 6

def keep : Priority := given (.ofNat 2)

def drop : Priority := given .zero

/-- A priority as it arrived, to six places. -/
def rounded (x : Binary64) : Priority := given (x.roundPlaces places)

def value : Priority → Binary64
  | given x => x
  | drawn sampled millionths => .ofDecimal (sampled.toNat * Nat.pow 10 places + millionths) places

end Priority

structure Outcome where
  sampled : Bool
  priority : Priority
  deriving DecidableEq

/-- What an inbound payload says about sampling, or what is left of it. -/
structure Inherited where
  sampled : Option Bool := none
  priority : Option Binary64 := none
  deriving DecidableEq

/-- A priority counts only together with a sampled flag. -/
def Inherited.normal (i : Inherited) : Inherited := if i.sampled.isSome then i else {}

/-- All that a decision leaves to chance. -/
structure Chance where
  /-- What the adaptive sampler of a role would answer. -/
  answer : SamplerRole → Bool
  millionths : Fin 1000000

/-- A decision before chance has its part in it. -/
inductive Decision
  | settled (o : Outcome)
  /-- Only the priority is still drawn. -/
  | flagged (sampled : Bool)
  | adaptive (role : SamplerRole)
  deriving DecidableEq

namespace Decision

def fixed (sampled : Bool) : Outcome := ⟨sampled,if sampled then .keep else .drop⟩

def outcome (d : Decision) (chance : Chance) : Outcome :=
  match d with
  | settled o => o
  | flagged sampled => ⟨sampled,.drawn sampled chance.millionths⟩
  | adaptive role =>
    let sampled := chance.answer role
    ⟨sampled,.drawn sampled chance.millionths⟩

def consulted : Decision → List SamplerRole
  | adaptive role => [role]
  | settled _ | flagged _ => []

end Decision

structure Decider where
  rules : PerRole RoleRule

namespace Decider

def ofSettings (s : Settings) : Logged Decider := do
  return ⟨← s.samplers.mapM RoleRule.ofSettings⟩

def root (d : Decider) (id : TraceId) : Decision :=
  match d.rules.root.fixed? id with
  | some sampled => .settled (Decision.fixed sampled)
  | none => .adaptive .root

/-- For a transaction that continues a trace: what it inherits under the rule of the role. -/
def remote (d : Decider) (role : SamplerRole) (id : TraceId) (payload : Inherited) : Inherited :=
  match (d.rules.get role).fixed? id with
  | some sampled => ⟨some sampled,some (Decision.fixed sampled).priority.value⟩
  | none => payload.normal

def settle (role : SamplerRole) (i : Inherited) : Decision :=
  match i.sampled, i.priority with
  | some sampled, some p => .settled ⟨sampled,.rounded p⟩
  | some sampled, none => .flagged sampled
  | none, _ => .adaptive role

end Decider

end TraceEngine
