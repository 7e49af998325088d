/-!
The three situations in which a trace is decided on, and values that depend on the situation.
-/
namespace TraceEngine

inductive SamplerRole
  /-- The trace starts here. -/
  | root
  /-- The service before this one keeps the trace. -/
  | remoteParentSampled
  /-- The service before this one does not keep the trace, or does not say. -/
  | remoteParentNotSampled
  deriving DecidableEq, Repr

namespace SamplerRole

def all : List SamplerRole := [root,remoteParentSampled,remoteParentNotSampled]

def name : SamplerRole → String
  | root => "root"
  | remoteParentSampled => "remote_parent_sampled"
  | remoteParentNotSampled => "remote_parent_not_sampled"

/-- The role for a trace that came from another service. -/
def remote (sampled : Option Bool) : SamplerRole :=
  if sampled = some true then remoteParentSampled else remoteParentNotSampled

end SamplerRole

structure PerRole (α : Type) where
  root : α
  remoteParentSampled : α
  remoteParentNotSampled : α
  deriving DecidableEq, Repr

namespace PerRole

variable {α β : Type}

def same (a : α) : PerRole α := ⟨a,a,a⟩

def get (p : PerRole α) : SamplerRole → α
  | .root => p.root
  | .remoteParentSampled => p.remoteParentSampled
  | .remoteParentNotSampled => p.remoteParentNotSampled

def set (p : PerRole α) (role : SamplerRole) (a : α) : PerRole α :=
  match role with
  | .root => { p with root := a }
  | .remoteParentSampled => { p with remoteParentSampled := a }
  | .remoteParentNotSampled => { p with remoteParentNotSampled := a }

@[simp] theorem get_same (a : α) (role : SamplerRole) : (same a).get role = a := by cases role <;> rfl

@[simp] theorem get_set_self (p : PerRole α) (role : SamplerRole) (a : α) : (p.set role a).get role = a := by
  cases role <;> rfl

theorem get_set_ne (p : PerRole α) {role other : SamplerRole} (a : α) (h : other ≠ role) :
    (p.set role a).get other = p.get other := by
  cases role <;> cases other <;> first | rfl | exact absurd rfl h

/-- Runs through the roles in their order. -/
def mapM {m : Type → Type} [Monad m] (f : SamplerRole → α → m β) (p : PerRole α) : m (PerRole β) := do
  let root ← f .root p.root
  let sampled ← f .remoteParentSampled p.remoteParentSampled
  let notSampled ← f .remoteParentNotSampled p.remoteParentNotSampled
  return ⟨root,sampled,notSampled⟩

end PerRole

end TraceEngine
