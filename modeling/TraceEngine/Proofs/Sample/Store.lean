import TraceEngine.Proofs.Sample.Buffer
import TraceEngine.Proofs.Sample.Harvest

/-! What the buffers of a store hold after any calls. Those that are harvested together are emptied together and offered
the same samples, so each holds its own selection of one list. -/
namespace TraceEngine

/-- The calls that may be made of a store. -/
inductive StoreCall
  | store (s : Sample)
  | storePrevious (previous : List Sample)
  | harvest
  | harvestDeveloper
  | reset
  | setSessions (names : List String)

/-- What the buffers that are harvested together are asked to do. -/
def StoreCall.toBuffers : StoreCall → List BufferCall
  | store s => [.store s]
  | storePrevious previous => [.storePrevious previous]
  | harvest => [.harvest]
  | harvestDeveloper => []
  | reset => [.reset]
  | setSessions names => [.setSessions names]

namespace BufferCall

/-- All samples offered since the buffer was last emptied. -/
def offered : List BufferCall → List Sample
  | [] => []
  | call::calls => (if calls.any (·.clears) then [] else call.offers) ++ offered calls

theorem offered_concat (calls : List BufferCall) (call : BufferCall) :
    offered (calls ++ [call]) = if call.clears then [] else offered calls ++ call.offers := by
  induction calls with
  | nil => cases call <;> simp [offered,clears,offers]
  | cons first calls ih =>
    simp only [List.cons_append,offered,ih,List.any_append,List.any_cons,List.any_nil,Bool.or_false]
    cases call.clears <;> simp

end BufferCall

namespace SamplePolicy

variable {p : SamplePolicy} {calls : List BufferCall}

/-- Sessions do not concern the policy. -/
def Steady (p : SamplePolicy) : Prop := ∀ names, p.withSessions names = p

theorem Steady.after (h : p.Steady) (call : BufferCall) : p.after call = p := by
  cases call with
  | setSessions names => exact h names
  | store | storePrevious | harvest | reset => rfl

theorem Steady.afterAll (h : p.Steady) (calls : List BufferCall) : p.afterAll calls = p := by
  induction calls using List.reverseRecOn with
  | nil => rfl
  | append_singleton calls call ih => rw [afterAll_concat,ih,h.after]

theorem afterAll_xray (sessions : List String) (calls : List BufferCall) :
    ∃ names, (xray sessions).afterAll calls = xray names := by
  induction calls using List.reverseRecOn with
  | nil => exact ⟨sessions,rfl⟩
  | append_singleton calls call ih =>
    obtain ⟨names,ih⟩ := ih
    rw [afterAll_concat,ih]
    cases call with
    | setSessions names => exact ⟨names,rfl⟩
    | store | storePrevious | harvest | reset => exact ⟨names,rfl⟩

theorem welcomed_sublist (p : SamplePolicy) (calls : List BufferCall) :
    (p.welcomed calls).Sublist (BufferCall.offered calls) := by
  induction calls generalizing p with
  | nil => exact .slnil
  | cons call calls ih =>
    rw [welcomed,BufferCall.offered]
    split
    · exact ih (p.after call)
    · exact List.filter_sublist.append (ih (p.after call))

theorem Steady.welcomed (h : p.Steady) (calls : List BufferCall) :
    p.welcomed calls = (BufferCall.offered calls).filter p.welcomes := by
  induction calls with
  | nil => rfl
  | cons call calls ih =>
    rw [SamplePolicy.welcomed,BufferCall.offered,h.after,ih]
    split <;> simp

end SamplePolicy

namespace SampleBuffer

variable {p : SamplePolicy}

theorem run_setSessions (hp : p.Steady) (calls : List BufferCall) (names : List String) :
    run ⟨p,[]⟩ (calls ++ [.setSessions names]) = run ⟨p,[]⟩ calls := by
  have hsame : (run ⟨p,[]⟩ calls).policy.withSessions names = (run ⟨p,[]⟩ calls).policy := by
    rw [policy_run,hp.afterAll,hp names]
  rw [run_concat]
  exact congrArg (SampleBuffer.mk · (run ⟨p,[]⟩ calls).samples) hsame

theorem run_setSessions_xray (sessions : List String) (calls : List BufferCall) (names : List String) :
    run ⟨.xray sessions,[]⟩ (calls ++ [.setSessions names]) =
      { run ⟨.xray sessions,[]⟩ calls with policy := .xray names } := by
  obtain ⟨before,hbefore⟩ := SamplePolicy.afterAll_xray sessions calls
  rw [run_concat,apply,policy_run,hbefore]
  rfl

theorem run_eq (p : SamplePolicy) (calls : List BufferCall) :
    run ⟨p,[]⟩ calls = ⟨p.afterAll calls,p.truncate (min p.capacity 20) (p.welcomed calls)⟩ := by
  have hsamples := holds_run p calls
  rw [Holds,policy_run,(p.alike_afterAll calls).truncate,limit_run] at hsamples
  exact congrArg₂ SampleBuffer.mk (policy_run p calls) hsamples

theorem run_eq_of_steady (hp : p.Steady) (calls : List BufferCall) : run ⟨p,[]⟩ calls =
    ⟨p,p.truncate (min p.capacity 20) ((BufferCall.offered calls).filter p.welcomes)⟩ := by
  rw [run_eq,hp.afterAll,hp.welcomed]

end SampleBuffer

namespace SampleStore

variable {b : SampleStore} {settings : Settings} {calls : List BufferCall} {offered : List Sample}

def apply (b : SampleStore) : StoreCall → SampleStore
  | .store s => (b.store s).2
  | .storePrevious previous => b.storePrevious previous
  | .harvest => b.harvest.value.2
  | .harvestDeveloper => b.harvestDeveloper.2
  | .reset => b.reset
  | .setSessions names => b.setSessions names

def run (b : SampleStore) (calls : List StoreCall) : SampleStore := calls.foldl apply b

/-- The buffers that are harvested together have gone through the same calls. -/
structure Follows (settings : Settings) (calls : List BufferCall) (b : SampleStore) : Prop where
  slowest : b.slowest = .run ⟨.slowest settings.transactionThreshold,[]⟩ calls
  forcePersist : b.forcePersist = .run ⟨.forcePersist,[]⟩ calls
  xray : b.xray = .run ⟨.xray [],[]⟩ calls
  synthetics : b.synthetics = .run ⟨.synthetics settings.syntheticsTracesLimit,[]⟩ calls

theorem Follows.concat (h : b.Follows settings calls) {c : SampleStore} (call : BufferCall)
    (hslowest : c.slowest = b.slowest.apply call) (hforced : c.forcePersist = b.forcePersist.apply call)
    (hxray : c.xray = b.xray.apply call) (hsynthetics : c.synthetics = b.synthetics.apply call) :
    c.Follows settings (calls ++ [call]) where
  slowest := by rw [SampleBuffer.run_concat,← h.slowest,hslowest]
  forcePersist := by rw [SampleBuffer.run_concat,← h.forcePersist,hforced]
  xray := by rw [SampleBuffer.run_concat,← h.xray,hxray]
  synthetics := by rw [SampleBuffer.run_concat,← h.synthetics,hsynthetics]

theorem Follows.apply (h : b.Follows settings calls) (call : StoreCall) :
    (b.apply call).Follows settings (calls ++ call.toBuffers) := by
  cases call with
  | store s => exact h.concat (.store s) rfl rfl rfl rfl
  | storePrevious previous => exact h.concat (.storePrevious previous) rfl rfl rfl rfl
  | harvest =>
    rw [SampleStore.apply,harvest_value]
    exact h.concat .harvest rfl rfl rfl rfl
  | harvestDeveloper =>
    rw [StoreCall.toBuffers,List.append_nil]
    exact ⟨h.slowest,h.forcePersist,h.xray,h.synthetics⟩
  | reset => exact h.concat .reset rfl rfl rfl rfl
  | setSessions names =>
    constructor
    · exact h.slowest.trans (SampleBuffer.run_setSessions (fun _ => rfl) calls names).symm
    · exact h.forcePersist.trans (SampleBuffer.run_setSessions (fun _ => rfl) calls names).symm
    · rw [StoreCall.toBuffers,SampleBuffer.run_setSessions_xray,← h.xray]
      rfl
    · exact h.synthetics.trans (SampleBuffer.run_setSessions (fun _ => rfl) calls names).symm

theorem run_concat (b : SampleStore) (calls : List StoreCall) (call : StoreCall) :
    b.run (calls ++ [call]) = (b.run calls).apply call := List.foldl_append

theorem Follows.run (h : b.Follows settings calls) (more : List StoreCall) :
    (b.run more).Follows settings (calls ++ more.flatMap StoreCall.toBuffers) := by
  induction more using List.reverseRecOn with
  | nil => exact (List.append_nil calls).symm ▸ h
  | append_singleton more call ih =>
    rw [run_concat,List.flatMap_append,List.flatMap_singleton,← List.append_assoc]
    exact ih.apply call

theorem follows_run (settings : Settings) (calls : List StoreCall) :
    ((ofSettings settings).run calls).Follows settings (calls.flatMap StoreCall.toBuffers) := by
  have hnew : (ofSettings settings).Follows settings [] := ⟨rfl,rfl,rfl,rfl⟩
  exact hnew.run calls

/-- Each buffer holds what its policy selects of the same samples. Those under a session were so when they came. -/
structure Selects (settings : Settings) (offered : List Sample) (b : SampleStore) : Prop where
  slowest : b.slowest = ⟨.slowest settings.transactionThreshold,
    (longestFirst (offered.filter fun s => decide (settings.transactionThreshold ≤ s.duration))).take 1⟩
  forcePersist : b.forcePersist = ⟨.forcePersist,(longestFirst (offered.filter (·.forcePersist))).take 15⟩
  xray : ∃ names, ∃ welcomed : List Sample,
    welcomed.Sublist offered ∧ b.xray = ⟨.xray names,welcomed.take 10⟩
  synthetics : b.synthetics = ⟨.synthetics settings.syntheticsTracesLimit,
    (offered.filter (·.syntheticsId.isSome)).take (min settings.syntheticsTracesLimit 20)⟩

theorem Follows.selections (h : b.Follows settings calls) : b.Selects settings (BufferCall.offered calls) where
  slowest := h.slowest.trans (SampleBuffer.run_eq_of_steady (fun _ => rfl) calls)
  forcePersist := h.forcePersist.trans (SampleBuffer.run_eq_of_steady (fun _ => rfl) calls)
  xray := by
    obtain ⟨names,hnames⟩ := SamplePolicy.afterAll_xray [] calls
    refine ⟨names,_,SamplePolicy.welcomed_sublist (.xray []) calls,?_⟩
    rw [h.xray,SampleBuffer.run_eq,hnames]
    rfl
  synthetics := h.synthetics.trans (SampleBuffer.run_eq_of_steady (fun _ => rfl) calls)

theorem Selects.slowest_length_le (h : b.Selects settings offered) : b.slowest.samples.length ≤ 1 := by
  rw [h.slowest]
  exact List.length_take_le ..

theorem Selects.held_subset (h : b.Selects settings offered) : b.held ⊆ offered := by
  obtain ⟨names,welcomed,hsub,hxray⟩ := h.xray
  have hsorted {p : Sample → Bool} {m : ℕ} : (longestFirst (offered.filter p)).take m ⊆ offered := fun s hs =>
    List.mem_of_mem_filter (mem_longestFirst.1 (List.mem_of_mem_take hs))
  rw [held,h.slowest,h.forcePersist,hxray,h.synthetics]
  refine List.append_subset.2 ⟨List.append_subset.2 ⟨List.append_subset.2 ⟨hsorted,?_⟩,?_⟩,hsorted⟩
  · exact fun s hs => hsub.subset (List.mem_of_mem_take hs)
  · exact fun s hs => List.mem_of_mem_filter (List.mem_of_mem_take hs)

end SampleStore

end TraceEngine
