import TraceEngine.Entropy
import TraceEngine.Sampling.Adaptive
import TraceEngine.Sampling.Decision

/-!
The adaptive samplers behind a decider: samplers that follow the traffic, or scripts that answer in a given
order. The three roles share one or have one each.
-/
namespace TraceEngine

/-- Answers in order, the last of them again and again. -/
structure Script where
  answers : List Bool
  calls : Nat := 0
  deriving DecidableEq, Repr

def Script.next (s : Script) : Bool := (s.answers[s.calls]?).getD (s.answers.getLastD false)

inductive Answerer
  | script (s : Script)
  | live (sampler : AdaptiveSampler) (state : AdaptiveState)

namespace Answerer

/-- The answer at a time, and the answerer after it. -/
def ask (a : Answerer) (now : Time) (e : Entropy) : Bool × Answerer :=
  match a with
  | script s => (s.next,script { s with calls := s.calls + 1 })
  | live sampler state =>
    let (sampled,state,_) := sampler.sampleFrom Entropy.below now state e
    (sampled,live sampler state)

end Answerer

inductive Panel
  | shared (a : Answerer)
  | separate (answerers : PerRole Answerer)

namespace Panel

def get (p : Panel) (role : SamplerRole) : Answerer :=
  match p with
  | shared a => a
  | separate answerers => answerers.get role

def set (p : Panel) (role : SamplerRole) (a : Answerer) : Panel :=
  match p with
  | shared _ => shared a
  | separate answerers => separate (answerers.set role a)

/-- Samplers with a target and a period, one for each role. -/
def live (target : Nat) (period now : Time) : Panel :=
  separate (.same (.live (.make target period) ⟨now,true,0,0,0⟩))

def calls? (p : Panel) : Option (List Nat) :=
  let count : Answerer → Option Nat
    | .script s => some s.calls
    | .live .. => none
  match p with
  | shared a => [a].mapM count
  | separate answerers => (SamplerRole.all.map answerers.get).mapM count

end Panel

structure Feed where
  panel : Panel
  entropy : Entropy

namespace Feed

def answer (f : Feed) (now : Time) (role : SamplerRole) : Bool × Answerer := (f.panel.get role).ask now f.entropy

def chance (f : Feed) (now : Time) : Chance where
  answer role := (f.answer now role).1
  millionths := Fin.ofNat _ (f.entropy.below 1000000).1

/-- The feed after the samplers of some roles were asked. -/
def advance (f : Feed) (now : Time) (consulted : List SamplerRole) : Feed where
  panel := consulted.foldl (fun p role => p.set role ((p.get role).ask now f.entropy).2) f.panel
  entropy := f.entropy.next.2

def settle (f : Feed) (now : Time) (d : Decision) : Outcome × Feed :=
  (d.outcome (f.chance now),f.advance now d.consulted)

end Feed

end TraceEngine
