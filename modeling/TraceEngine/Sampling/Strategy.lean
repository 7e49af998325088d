import TraceEngine.Binary64.Decimal
import TraceEngine.Sampling.Ratio
import TraceEngine.Settings.Basic

/-!
Sampling strategies by name, and what the settings of a role come down to.
-/
namespace TraceEngine

inductive Strategy
  | default
  | adaptive
  | alwaysOn
  | alwaysOff
  | traceIdRatio
  | unknown (name : String)
  deriving DecidableEq, Repr

namespace Strategy

def read (s : String) : Strategy :=
  match Text.trimmed s with
  | "default" => .default
  | "adaptive" => .adaptive
  | "always_on" => .alwaysOn
  | "always_off" => .alwaysOff
  | "trace_id_ratio_based" => .traceIdRatio
  | other => .unknown other

def name : Strategy → String
  | .default => "default"
  | adaptive => "adaptive"
  | alwaysOn => "always_on"
  | alwaysOff => "always_off"
  | traceIdRatio => "trace_id_ratio_based"
  | unknown name => name

end Strategy

/-- How one role decides: by a fixed rule, or else adaptively or as the service before decided. -/
inductive RoleRule
  | free
  | alwaysOn
  | alwaysOff
  | ratio (sampler : RatioSampler)
  deriving DecidableEq

namespace RoleRule

def optionText (ratio : Option Binary64) : String :=
  match ratio with
  | some r => s!"Some({r.text})"
  | none => "None"

/-- Settings that make no sense are reported and leave the rule open. -/
def ofSettings (role : SamplerRole) (s : SamplerSettings) : Logged RoleRule :=
  match Strategy.read s.strategy with
  | .default | .adaptive => pure .free
  | .alwaysOn => pure .alwaysOn
  | .alwaysOff => pure .alwaysOff
  | .traceIdRatio =>
    match s.ratio.bind RatioSampler.of? with
    | some sampler => pure (.ratio sampler)
    | none => do
      .write .warn (s!"Sampling: {role.name} sampler is trace_id_ratio_based but its ratio {optionText s.ratio}" ++
        " is not a number between 0 and 1, falling back to adaptive")
      return .free
  | .unknown name => do
    .write .warn s!"Sampling: unknown {role.name} sampler {Text.quoted name}, falling back to adaptive"
    return .free

/-- Whether a trace is kept, if the rule fixes it. -/
def fixed? (rule : RoleRule) (id : TraceId) : Option Bool :=
  match rule with
  | free => none
  | alwaysOn => some true
  | alwaysOff => some false
  | ratio sampler => some (sampler.keeps id)

end RoleRule

end TraceEngine
