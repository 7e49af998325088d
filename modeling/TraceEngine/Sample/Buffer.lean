import TraceEngine.Sample.Basic

/-!
Bounded buffers of samples. The policy of a buffer says which samples come in, and which are dropped when there
are too many.
-/
namespace TraceEngine

inductive SamplePolicy
  /-- The slowest sample that lasts at least the threshold. -/
  | slowest (threshold : Time)
  /-- The slowest samples that are to be kept in any case. -/
  | forcePersist
  /-- The first samples of the transactions that are under a session, by their names. -/
  | xray (sessions : List String)
  /-- The first samples of synthetic requests. -/
  | synthetics (capacity : Nat)
  /-- The last samples of all. -/
  | developer (enabled : Bool)
  deriving DecidableEq, Repr

namespace SamplePolicy

def capacity : SamplePolicy → Nat
  | slowest _ => 1
  | forcePersist => 15
  | xray _ => 10
  | synthetics capacity => capacity
  | developer _ => 100

def enabled : SamplePolicy → Bool
  | developer enabled => enabled
  | _ => true

def allows (p : SamplePolicy) (s : Sample) : Bool :=
  match p with
  | slowest threshold => decide (threshold ≤ s.duration)
  | forcePersist => s.forcePersist
  | xray sessions => sessions.contains s.transactionName
  | synthetics _ => s.syntheticsId.isSome
  | developer _ => true

def rejectsWhenFull : SamplePolicy → Bool
  | xray _ | synthetics _ => true
  | slowest _ | forcePersist | developer _ => false

end SamplePolicy

/-- The longest first; samples of one duration stay in their order. -/
def longestFirst (samples : List Sample) : List Sample := samples.mergeSort fun a b => decide (b.duration ≤ a.duration)

/-- At most `limit` of the samples, by a policy. -/
def SamplePolicy.truncate (p : SamplePolicy) (limit : Nat) (samples : List Sample) : List Sample :=
  match p with
  | slowest _ | forcePersist => (longestFirst samples).take limit
  | xray _ | synthetics _ => samples.take limit
  | developer _ => samples.drop (samples.length - limit)

structure SampleBuffer where
  policy : SamplePolicy
  samples : List Sample := []

namespace SampleBuffer

def hardLimit : Nat := 20

def limit (b : SampleBuffer) : Nat := min b.policy.capacity hardLimit

def isFull (b : SampleBuffer) : Bool := decide (b.limit ≤ b.samples.length)

def admits (b : SampleBuffer) (s : Sample) : Bool :=
  b.policy.enabled && b.policy.allows s && !(b.policy.rejectsWhenFull && b.isFull)

def add (b : SampleBuffer) (samples : List Sample) : SampleBuffer :=
  { b with samples := b.policy.truncate b.limit (b.samples ++ samples) }

/-- Offers a sample, and tells whether it came in. It may have been dropped again at once. -/
def store (b : SampleBuffer) (s : Sample) : Bool × SampleBuffer :=
  if b.admits s then (true,b.add [s]) else (false,b)

/-- Takes back the samples of a harvest that could not be sent. -/
def storePrevious (b : SampleBuffer) (previous : List Sample) : SampleBuffer :=
  if b.policy.enabled then b.add (previous.filter b.policy.allows) else b

def reset (b : SampleBuffer) : SampleBuffer := { b with samples := [] }

def harvest (b : SampleBuffer) : List Sample × SampleBuffer := (b.samples,b.reset)

end SampleBuffer

end TraceEngine
