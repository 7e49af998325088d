import TraceEngine.Sample.Buffer

/-!
All buffers of samples, and what a harvest takes from them.
-/
namespace TraceEngine

structure SampleStore where
  slowest : SampleBuffer
  forcePersist : SampleBuffer
  xray : SampleBuffer
  synthetics : SampleBuffer
  /-- Harvested on its own. -/
  developer : SampleBuffer

def firstOfEachGuid (samples : List Sample) : List Sample :=
  samples.foldl (fun kept s => if kept.any (·.guid = s.guid) then kept else kept ++ [s]) []

namespace SampleStore

def ofSettings (s : Settings) : SampleStore where
  slowest := ⟨.slowest s.transactionThreshold,[]⟩
  forcePersist := ⟨.forcePersist,[]⟩
  xray := ⟨.xray [],[]⟩
  synthetics := ⟨.synthetics s.syntheticsTracesLimit,[]⟩
  developer := ⟨.developer s.developerMode,[]⟩

/-- Offers a sample to every buffer, and tells whether it came into one of them. -/
def store (b : SampleStore) (s : Sample) : Bool × SampleStore :=
  let slowest := b.slowest.store s
  let forcePersist := b.forcePersist.store s
  let xray := b.xray.store s
  let synthetics := b.synthetics.store s
  let developer := b.developer.store s
  (slowest.1 || forcePersist.1 || xray.1 || synthetics.1 || developer.1,
    ⟨slowest.2,forcePersist.2,xray.2,synthetics.2,developer.2⟩)

def storePrevious (b : SampleStore) (previous : List Sample) : SampleStore :=
  { b with slowest := b.slowest.storePrevious previous, forcePersist := b.forcePersist.storePrevious previous,
           xray := b.xray.storePrevious previous, synthetics := b.synthetics.storePrevious previous }

/-- The samples that are harvested for another reason than their duration alone, the longest first. -/
def forced (b : SampleStore) : List Sample :=
  longestFirst (firstOfEachGuid (b.forcePersist.samples ++ b.xray.samples ++ b.synthetics.samples))

/-- The longest of the slowest samples, unless it is among the forced ones. -/
def unforced? (b : SampleStore) : Option Sample :=
  (b.slowest.samples.filter fun s => !b.forced.any (·.guid = s.guid)).foldl
    (fun longest s =>
      match longest with
      | some l => if l.duration ≤ s.duration then some s else some l
      | none => some s) none

def emptied (b : SampleStore) : SampleStore :=
  { b with slowest := b.slowest.reset, forcePersist := b.forcePersist.reset, xray := b.xray.reset,
           synthetics := b.synthetics.reset }

def harvest (b : SampleStore) : Logged (List Sample × SampleStore) := do
  let all := b.forced ++ b.unforced?.toList
  if SampleBuffer.hardLimit < all.length then
    .write .debug
      s!"Dropping {all.length - SampleBuffer.hardLimit} transaction samples over the harvest limit"
  return (all.take SampleBuffer.hardLimit,b.emptied)

def harvestDeveloper (b : SampleStore) : List Sample × SampleStore :=
  (b.developer.samples,{ b with developer := b.developer.reset })

def reset (b : SampleStore) : SampleStore := { b.emptied with developer := b.developer.reset }

def setSessions (b : SampleStore) (names : List String) : SampleStore :=
  { b with xray := { b.xray with policy := .xray names } }

end SampleStore

end TraceEngine
