import Mathlib.Data.List.Induction
import TraceEngine.Proofs.Sample.Order

/-! What a buffer holds after any calls. It cuts its samples down after each call, but they are what one look at all the
samples let in since it was last emptied would leave. -/
namespace TraceEngine

/-- The calls that may be made of a buffer. Sessions are known to one policy only. -/
inductive BufferCall
  | store (s : Sample)
  | storePrevious (previous : List Sample)
  | harvest
  | reset
  | setSessions (names : List String)

namespace BufferCall

def offers : BufferCall → List Sample
  | store s => [s]
  | storePrevious previous => previous
  | _ => []

def clears : BufferCall → Bool
  | harvest | reset => true
  | _ => false

end BufferCall

namespace SamplePolicy

variable {p : SamplePolicy} {m : ℕ} {a b : List Sample}

/-- Samples that come in while there is room. -/
def welcomes (p : SamplePolicy) (s : Sample) : Bool := p.enabled && p.allows s

def withSessions (p : SamplePolicy) (names : List String) : SamplePolicy :=
  match p with
  | xray _ => xray names
  | p => p

def after (p : SamplePolicy) : BufferCall → SamplePolicy
  | .setSessions names => p.withSessions names
  | _ => p

/-- The samples that were offered since the buffer was last emptied, and that the policy of the time welcomed. -/
def welcomed (p : SamplePolicy) : List BufferCall → List Sample
  | [] => []
  | call::calls =>
    (if calls.any (·.clears) then [] else call.offers.filter p.welcomes) ++ (p.after call).welcomed calls

/-- What a buffer is to hold of the samples it welcomed, if it has room for `m` of them. -/
def Keeps (p : SamplePolicy) (m : ℕ) (a kept : List Sample) : Prop :=
  match p with
  | slowest _ | forcePersist => ∃ sorted, LongestFirst a sorted ∧ kept = sorted.take m
  | xray _ | synthetics _ => kept = a.take m
  | developer _ => kept.IsSuffix a ∧ kept.length = min m a.length

/-- Policies that turn samples away do so when the buffer is full. -/
def HasRoom (p : SamplePolicy) (m : ℕ) (kept : List Sample) : Prop :=
  match p with
  | xray _ | synthetics _ => kept.length < m
  | slowest _ | forcePersist | developer _ => True

theorem truncate_nil (p : SamplePolicy) (m : ℕ) : p.truncate m [] = [] := by
  cases p <;> simp [truncate,longestFirst]

theorem truncate_subset (p : SamplePolicy) (m : ℕ) (a : List Sample) : p.truncate m a ⊆ a := by
  cases p with
  | slowest | forcePersist => exact fun s hs => mem_longestFirst.1 (List.mem_of_mem_take hs)
  | xray | synthetics => exact List.take_subset ..
  | developer => exact List.drop_subset ..

/-- To truncate a part and go on is to truncate it all. -/
theorem truncate_append (p : SamplePolicy) (m : ℕ) (a b : List Sample) :
    p.truncate m (p.truncate m a ++ b) = p.truncate m (a ++ b) := by
  cases p with
  | slowest | forcePersist => exact take_longestFirst_append m a b
  | xray | synthetics =>
    have hroom : m - min m a.length = m - a.length := by omega
    simp [truncate,List.take_append,List.take_take,hroom]
  | developer =>
    have hfront : a.length - m + (a.length - (a.length - m) + b.length - m) = a.length + b.length - m := by omega
    have hback : a.length - (a.length - m) + b.length - m - (a.length - (a.length - m)) =
        a.length + b.length - m - a.length := by omega
    simp [truncate,List.drop_append,List.drop_drop,hfront,hback]

theorem keeps_truncate (p : SamplePolicy) (m : ℕ) (a : List Sample) : p.Keeps m a (p.truncate m a) := by
  cases p with
  | slowest | forcePersist => exact ⟨_,longestFirst_spec a,rfl⟩
  | xray | synthetics => rfl
  | developer =>
    refine ⟨List.drop_suffix _ a,?_⟩
    simp only [truncate,List.length_drop]
    omega

theorem Keeps.length_le {kept : List Sample} (h : p.Keeps m a kept) : kept.length ≤ m := by
  cases p with
  | slowest | forcePersist =>
    obtain ⟨sorted,-,rfl⟩ := h
    exact List.length_take_le m sorted
  | xray | synthetics => exact h ▸ List.length_take_le m a
  | developer => exact h.2 ▸ Nat.min_le_left m a.length

theorem hasRoom_iff (p : SamplePolicy) (m : ℕ) (kept : List Sample) :
    p.HasRoom m kept ↔ (p.rejectsWhenFull = true → kept.length < m) := by
  cases p <;> simp [HasRoom,rejectsWhenFull]

def afterAll (p : SamplePolicy) (calls : List BufferCall) : SamplePolicy := calls.foldl after p

variable {call : BufferCall} {calls : List BufferCall}

/-- Sessions change nothing but which samples are allowed. -/
structure Alike (p q : SamplePolicy) : Prop where
  enabled : q.enabled = p.enabled
  capacity : q.capacity = p.capacity
  rejectsWhenFull : q.rejectsWhenFull = p.rejectsWhenFull
  truncate : q.truncate = p.truncate
  keeps : q.Keeps = p.Keeps
  hasRoom : q.HasRoom = p.HasRoom

theorem Alike.refl (p : SamplePolicy) : p.Alike p := ⟨rfl,rfl,rfl,rfl,rfl,rfl⟩

theorem alike_after (p : SamplePolicy) (call : BufferCall) : p.Alike (p.after call) := by
  cases call with
  | setSessions names => cases p <;> exact ⟨rfl,rfl,rfl,rfl,rfl,rfl⟩
  | store | storePrevious | harvest | reset => exact .refl p

theorem afterAll_concat (p : SamplePolicy) (calls : List BufferCall) (call : BufferCall) :
    p.afterAll (calls ++ [call]) = (p.afterAll calls).after call := List.foldl_append

theorem alike_afterAll (p : SamplePolicy) (calls : List BufferCall) : p.Alike (p.afterAll calls) := by
  induction calls using List.reverseRecOn with
  | nil => exact .refl p
  | append_singleton calls call ih =>
    have h := (p.afterAll calls).alike_after call
    rw [afterAll_concat]
    exact ⟨h.enabled.trans ih.enabled,h.capacity.trans ih.capacity,h.rejectsWhenFull.trans ih.rejectsWhenFull,
      h.truncate.trans ih.truncate,h.keeps.trans ih.keeps,h.hasRoom.trans ih.hasRoom⟩

theorem welcomed_concat (p : SamplePolicy) (calls : List BufferCall) (call : BufferCall) :
    p.welcomed (calls ++ [call]) =
      if call.clears then [] else p.welcomed calls ++ call.offers.filter (p.afterAll calls).welcomes := by
  induction calls generalizing p with
  | nil => cases call <;> simp [welcomed,BufferCall.clears,BufferCall.offers,afterAll]
  | cons first calls ih =>
    simp only [List.cons_append,welcomed,ih,List.any_append,List.any_cons,List.any_nil,Bool.or_false]
    cases hclears : call.clears with
    | true => simp
    | false => simp [afterAll]

end SamplePolicy

namespace SampleBuffer

variable {b : SampleBuffer} {a : List Sample} {call : BufferCall}

def apply (b : SampleBuffer) : BufferCall → SampleBuffer
  | .store s => (b.store s).2
  | .storePrevious previous => b.storePrevious previous
  | .harvest => b.harvest.2
  | .reset => b.reset
  | .setSessions names => { b with policy := b.policy.withSessions names }

def run (b : SampleBuffer) (calls : List BufferCall) : SampleBuffer := calls.foldl apply b

theorem run_concat (b : SampleBuffer) (calls : List BufferCall) (call : BufferCall) :
    b.run (calls ++ [call]) = (b.run calls).apply call := List.foldl_append

theorem policy_apply (b : SampleBuffer) (call : BufferCall) : (b.apply call).policy = b.policy.after call := by
  cases call with
  | store s =>
    simp only [apply,store]
    split <;> rfl
  | storePrevious previous =>
    simp only [apply,storePrevious]
    split <;> rfl
  | harvest | reset | setSessions => rfl

/-- The samples of a buffer are those that it welcomed, cut down to its limit. -/
def Holds (b : SampleBuffer) (a : List Sample) : Prop := b.samples = b.policy.truncate b.limit a

theorem Holds.add (h : b.Holds a) (more : List Sample) : (b.add more).Holds (a ++ more) := by
  rw [Holds] at h
  simp only [Holds,SampleBuffer.add,limit]
  rw [h]
  exact b.policy.truncate_append b.limit a more

theorem Holds.full (h : b.Holds a) (hrejects : b.policy.rejectsWhenFull = true) (hfull : b.isFull = true)
    (more : List Sample) : b.Holds (a ++ more) := by
  simp only [isFull,decide_eq_true_eq] at hfull
  rw [Holds] at h ⊢
  have htake (c : List Sample) : b.policy.truncate b.limit c = c.take b.limit := by
    cases hp : b.policy <;> simp_all [SamplePolicy.rejectsWhenFull,SamplePolicy.truncate]
  rw [htake] at h ⊢
  have hlen : b.limit ≤ a.length := by
    rw [h,List.length_take] at hfull
    omega
  rw [h,List.take_append_of_le_length hlen]

theorem admits_eq (b : SampleBuffer) (s : Sample) :
    b.admits s = (b.policy.welcomes s && !(b.policy.rejectsWhenFull && b.isFull)) := rfl

theorem Holds.store (h : b.Holds a) (s : Sample) : (b.store s).2.Holds (a ++ [s].filter b.policy.welcomes) := by
  simp only [SampleBuffer.store,admits_eq]
  by_cases hwelcome : b.policy.welcomes s = true
  · by_cases hturned : (b.policy.rejectsWhenFull && b.isFull) = true
    · obtain ⟨hrejects,hfull⟩ := Bool.and_eq_true_iff.1 hturned
      simpa [hwelcome,hrejects,hfull] using h.full hrejects hfull [s]
    · simpa [hwelcome,hturned] using h.add [s]
  · simpa [hwelcome] using h

theorem mem_store {s t : Sample} (ht : t ∈ (b.store s).2.samples) :
    t ∈ b.samples ∨ t = s ∧ (b.store s).1 = true := by
  by_cases hadmits : b.admits s = true
  · rw [store,if_pos hadmits] at ht ⊢
    have hmem := b.policy.truncate_subset b.limit _ ht
    simpa using hmem
  · rw [store,if_neg hadmits] at ht
    exact .inl ht

theorem Holds.storePrevious (h : b.Holds a) (previous : List Sample) :
    (b.storePrevious previous).Holds (a ++ previous.filter b.policy.welcomes) := by
  simp only [SampleBuffer.storePrevious]
  cases henabled : b.policy.enabled with
  | false =>
    have hnone : b.policy.welcomes = fun _ => false := by
      funext s
      simp [SamplePolicy.welcomes,henabled]
    simpa [hnone] using h
  | true =>
    have hall : b.policy.welcomes = b.policy.allows := by
      funext s
      simp [SamplePolicy.welcomes,henabled]
    simpa [hall] using h.add (previous.filter b.policy.allows)

theorem holds_nil (h : b.samples = []) : b.Holds [] := by
  rw [Holds,h,SamplePolicy.truncate_nil]

theorem Holds.apply (h : b.Holds a) (call : BufferCall) :
    (b.apply call).Holds (if call.clears then [] else a ++ call.offers.filter b.policy.welcomes) := by
  cases call with
  | store s => exact h.store s
  | storePrevious previous => exact h.storePrevious previous
  | harvest | reset => exact holds_nil rfl
  | setSessions names =>
    have hsame := b.policy.alike_after (.setSessions names)
    have htruncate : (b.policy.withSessions names).truncate = b.policy.truncate := hsame.truncate
    have hcapacity : (b.policy.withSessions names).capacity = b.policy.capacity := hsame.capacity
    simpa [Holds,SampleBuffer.apply,limit,BufferCall.clears,BufferCall.offers,htruncate,hcapacity] using h

theorem policy_run (p : SamplePolicy) (calls : List BufferCall) : (run ⟨p,[]⟩ calls).policy = p.afterAll calls := by
  induction calls using List.reverseRecOn with
  | nil => rfl
  | append_singleton calls call ih =>
    rw [run_concat,policy_apply,ih,SamplePolicy.afterAll_concat]

theorem holds_run (p : SamplePolicy) (calls : List BufferCall) : (run ⟨p,[]⟩ calls).Holds (p.welcomed calls) := by
  induction calls using List.reverseRecOn with
  | nil => exact holds_nil rfl
  | append_singleton calls call ih =>
    rw [run_concat,p.welcomed_concat,← policy_run]
    exact ih.apply call

theorem limit_run (p : SamplePolicy) (calls : List BufferCall) :
    (run ⟨p,[]⟩ calls).limit = min p.capacity hardLimit := by
  rw [limit,policy_run,(p.alike_afterAll calls).capacity]

theorem keeps_run (p : SamplePolicy) (calls : List BufferCall) :
    p.Keeps (min p.capacity hardLimit) (p.welcomed calls) (run ⟨p,[]⟩ calls).samples := by
  rw [holds_run p calls,policy_run,(p.alike_afterAll calls).truncate,limit_run]
  exact p.keeps_truncate _ _

theorem store_run_iff (p : SamplePolicy) (calls : List BufferCall) (s : Sample) :
    ((run ⟨p,[]⟩ calls).store s).1 = true ↔
      (p.afterAll calls).welcomes s = true ∧ p.HasRoom (min p.capacity hardLimit) (run ⟨p,[]⟩ calls).samples := by
  have hstore : ((run ⟨p,[]⟩ calls).store s).1 = (run ⟨p,[]⟩ calls).admits s := by
    simp only [store]
    split <;> simp_all
  have hroom := (p.afterAll calls).hasRoom_iff (min p.capacity hardLimit) (run ⟨p,[]⟩ calls).samples
  rw [(p.alike_afterAll calls).hasRoom] at hroom
  rw [hstore,admits_eq,policy_run,hroom,isFull,limit_run]
  simp [imp_iff_not_or]

/-- After any calls a buffer holds what one selection among all the samples leaves that were offered since it was last
emptied and welcomed at the time: the longest of them, those of one duration as they arrived, or the first, or the last,
and never more than 20. A sample is taken if it is welcome and, where samples are turned away, there is room. -/
theorem selects (p : SamplePolicy) (calls : List BufferCall) :
    let b := run ⟨p,[]⟩ calls
    let a := p.welcomed calls
    let m := min p.capacity 20
    p.Keeps m a b.samples ∧ b.samples.length ≤ 20 ∧
      ∀ s, (b.store s).1 = true ↔ p.welcomed (calls ++ [.store s]) = a ++ [s] ∧ p.HasRoom m b.samples := by
  refine ⟨keeps_run p calls,?_,fun s => ?_⟩
  · exact (keeps_run p calls).length_le.trans (Nat.min_le_right _ _)
  · have hjoins : p.welcomed (calls ++ [.store s]) = p.welcomed calls ++ [s] ↔
        (p.afterAll calls).welcomes s = true := by
      rw [p.welcomed_concat]
      cases h : (p.afterAll calls).welcomes s <;> simp [BufferCall.clears,BufferCall.offers,h]
    rw [hjoins]
    exact store_run_iff p calls s

end SampleBuffer

end TraceEngine
