import TraceEngine.Proofs.Propagation.Exchange
import TraceEngine.Proofs.Sampling.Share
import TraceEngine.Sampling.Feed

/-! Decisions by the settings of a role. Settings that fix a decision fix it for a trace that starts here
as for one that is continued, whatever the service before said, and ask no sampler. Other settings leave
it to what the service before said, and only where it said nothing one sampler is asked, once. -/
namespace TraceEngine

/-- What the settings of a role fix about a trace, if they do. They look at the trace alone. -/
def SamplerSettings.fixed? (s : SamplerSettings) (id : TraceId) : Option Bool :=
  match Text.trimmed s.strategy with
  | "always_on" => some true
  | "always_off" => some false
  | "trace_id_ratio_based" =>
    (s.ratio.filter (·.isFraction)).map fun r => decide (id.lowerHalf < r.ceilScaled 64)
  | _ => none

/-- The decision on a trace that is continued in a role, with what the service before said. -/
def Decider.continued (d : Decider) (role : SamplerRole) (id : TraceId) (i : Inherited) : Decision :=
  Decider.settle role (d.remote role id i)

theorem SamplerSettings.fixed?_eq (s : SamplerSettings) (id : TraceId) :
    s.fixed? id = match Strategy.read s.strategy with
      | .alwaysOn => some true
      | .alwaysOff => some false
      | .traceIdRatio => (s.ratio.bind RatioSampler.of?).map (·.keeps id)
      | .default | .adaptive | .unknown _ => none := by
  have hratio : (s.ratio.filter (·.isFraction)).map (fun r => decide (id.lowerHalf < r.ceilScaled 64)) =
      (s.ratio.bind RatioSampler.of?).map (·.keeps id) := by
    cases s.ratio with
    | none => rfl
    | some r => cases hr : r.isFraction <;> simp [RatioSampler.of?,RatioSampler.keeps_eq,hr,Option.filter]
  rw [fixed?,hratio]
  fun_cases Strategy.read s.strategy with
  | case1 h | case2 h | case3 h | case4 h | case5 h => simp [h]
  | case6 => simp only

theorem RoleRule.fixed?_ofSettings (role : SamplerRole) (s : SamplerSettings) (id : TraceId) :
    (RoleRule.ofSettings role s).value.fixed? id = s.fixed? id := by
  rw [SamplerSettings.fixed?_eq]
  unfold ofSettings
  cases Strategy.read s.strategy with
  | default | adaptive | alwaysOn | alwaysOff | unknown => rfl
  | traceIdRatio => cases s.ratio.bind RatioSampler.of? <;> rfl

theorem Decider.fixed?_ofSettings (s : Settings) (role : SamplerRole) (id : TraceId) :
    ((Decider.ofSettings s).value.rules.get role).fixed? id = (s.samplers.get role).fixed? id := by
  rw [← RoleRule.fixed?_ofSettings role]
  cases role <;> rfl

namespace Decider

variable {d : Decider} {role : SamplerRole} {id : TraceId} {sampled : Bool}

theorem root_of_fixed (h : (d.rules.get .root).fixed? id = some sampled) :
    d.root id = .settled (Decision.fixed sampled) := by
  have hroot : d.rules.root.fixed? id = some sampled := h
  rw [root,hroot]

theorem root_of_free (h : (d.rules.get .root).fixed? id = none) : d.root id = .adaptive .root := by
  have hroot : d.rules.root.fixed? id = none := h
  rw [root,hroot]

theorem rounded_fixed (sampled : Bool) :
    Priority.rounded (Decision.fixed sampled).priority.value = (Decision.fixed sampled).priority := by
  cases sampled <;> decide +kernel

theorem continued_of_fixed (h : (d.rules.get role).fixed? id = some sampled) (i : Inherited) :
    d.continued role id i = .settled (Decision.fixed sampled) := by
  rw [continued,remote,h]
  exact congrArg (fun p => Decision.settled ⟨sampled,p⟩) (rounded_fixed sampled)

theorem continued_of_free (h : (d.rules.get role).fixed? id = none) (i : Inherited) :
    d.continued role id i = match i.sampled, i.priority with
      | some sampled, some p => .settled ⟨sampled,.rounded p⟩
      | some sampled, none => .flagged sampled
      | none, _ => .adaptive role := by
  rw [continued,remote,h]
  obtain ⟨sampled,priority⟩ := i
  cases sampled <;> cases priority <;> rfl

end Decider

namespace Feed

variable {f : Feed} {now : Time}

structure Settles (f : Feed) (now : Time) (d : Decision) (o : Outcome) : Prop where
  consulted : d.consulted = []
  outcome : (f.settle now d).1 = o
  panel : (f.settle now d).2.panel = f.panel

/-- A decision for which the sampler of one role is asked, once, and that of no other role. -/
structure Asks (f : Feed) (now : Time) (d : Decision) (role : SamplerRole) : Prop where
  consulted : d.consulted = [role]
  sampled : (f.settle now d).1.sampled = (f.answer now role).1
  asked : (f.settle now d).2.panel.get role = (f.answer now role).2
  others : ∀ answerers, f.panel = .separate answerers → ∀ other, other ≠ role →
    (f.settle now d).2.panel.get other = answerers.get other

theorem panel_settle (f : Feed) (now : Time) (d : Decision) :
    (f.settle now d).2.panel =
      d.consulted.foldl (fun p role => p.set role ((p.get role).ask now f.entropy).2) f.panel := rfl

theorem settles_of_consulted {d : Decision} (h : d.consulted = []) (f : Feed) (now : Time) :
    f.Settles now d (d.outcome (f.chance now)) where
  consulted := h
  outcome := rfl
  panel := by rw [panel_settle,h,List.foldl_nil]

theorem asks_adaptive (f : Feed) (now : Time) (role : SamplerRole) : f.Asks now (.adaptive role) role := by
  have hpanel : (f.settle now (.adaptive role)).2.panel = f.panel.set role (f.answer now role).2 :=
    f.panel_settle now (.adaptive role)
  constructor
  case consulted => rfl
  case sampled => rfl
  case asked =>
    rw [hpanel]
    cases f.panel with
    | shared a => rfl
    | separate answerers => exact answerers.get_set_self role _
  case others =>
    intro answerers hseparate other hother
    rw [hpanel,hseparate]
    exact answerers.get_set_ne _ hother

end Feed

/-- How traces are decided on by the settings of their roles: those that start here and those that are
continued, by settings that fix the decision and by others. -/
structure Decider.ByRole (s : Settings) (f : Feed) (now : Time) : Prop where
  rootFixed : ∀ id sampled, s.samplers.root.fixed? id = some sampled →
    f.Settles now ((ofSettings s).value.root id) (Decision.fixed sampled)
  rootFree : ∀ id, s.samplers.root.fixed? id = none → f.Asks now ((ofSettings s).value.root id) .root
  continuedFixed : ∀ role id i sampled, (s.samplers.get role).fixed? id = some sampled →
    f.Settles now ((ofSettings s).value.continued role id i) (Decision.fixed sampled)
  continuedFlagged : ∀ role id i sampled, (s.samplers.get role).fixed? id = none → i.sampled = some sampled →
    f.Settles now ((ofSettings s).value.continued role id i)
      ⟨sampled,(i.priority.map .rounded).getD (.drawn sampled (f.chance now).millionths)⟩
  continuedFree : ∀ role id i, (s.samplers.get role).fixed? id = none → i.sampled = none →
    f.Asks now ((ofSettings s).value.continued role id i) role
  accepted : ∀ (x : Exchange) (c : TraceContext), x.isClosed = false →
    ∃ a x', (x.accept (ofSettings s).value c).value = (some a,x') ∧
      a.role = (if c.parent.flags % 2 = 1 then .remoteParentSampled else .remoteParentNotSampled) ∧
      a.decision = (ofSettings s).value.continued a.role c.traceId c.inherited

/-- What becomes of a trace by the settings of its role. If they fix the decision, that is the decision
and its priority, for a trace that starts here and for one that is continued alike, and no sampler is
asked. If not, a trace that starts here asks the sampler of its own role, once. One that is continued
keeps the flag that came with it, without a sampler; if none came, it asks the sampler of the role
that the flags of the parent header name, once. -/
theorem Decider.decides_by_role (s : Settings) (f : Feed) (now : Time) : ByRole s f now := by
  have hfixed := Decider.fixed?_ofSettings s
  constructor
  case rootFixed =>
    intro id sampled h
    rw [root_of_fixed ((hfixed .root id).trans h)]
    exact Feed.settles_of_consulted rfl f now
  case rootFree =>
    intro id h
    rw [root_of_free ((hfixed .root id).trans h)]
    exact f.asks_adaptive now .root
  case continuedFixed =>
    intro role id i sampled h
    rw [continued_of_fixed ((hfixed role id).trans h)]
    exact Feed.settles_of_consulted rfl f now
  case continuedFlagged =>
    intro role id i sampled h hi
    rw [continued_of_free ((hfixed role id).trans h),hi]
    cases i.priority with
    | none => exact Feed.settles_of_consulted rfl f now
    | some p => exact Feed.settles_of_consulted rfl f now
  case continuedFree =>
    intro role id i h hi
    rw [continued_of_free ((hfixed role id).trans h),hi]
    exact f.asks_adaptive now role
  case accepted =>
    intro x c hx
    refine ⟨_,_,Exchange.accept_eq_taken hx _ c,?_,rfl⟩
    by_cases hflag : c.parent.flags % 2 = 1 <;>
      simp [takenOver,SamplerRole.remote,TraceParent.isSampled,hflag]

end TraceEngine
