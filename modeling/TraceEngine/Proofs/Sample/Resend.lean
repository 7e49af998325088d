import Mathlib.Data.List.Permutation
import TraceEngine.Proofs.Sample.Store

/-! A harvest that could not be sent. Its samples are given back to all the buffers, each of which takes what its policy
selects of them, and the next harvest finds the samples that came into one of the buffers. -/
namespace TraceEngine

namespace SampleStore

variable {b : SampleStore} {settings : Settings} {offered : List Sample} {s t : Sample}

def refilled (b : SampleStore) : SampleStore := b.emptied.storePrevious b.harvested

theorem Selects.refilled (h : b.Selects settings offered) : b.refilled.Selects settings b.harvested where
  slowest := by
    rw [SampleStore.refilled,storePrevious,emptied,h.slowest]
    rfl
  forcePersist := by
    rw [SampleStore.refilled,storePrevious,emptied,h.forcePersist]
    rfl
  xray := by
    obtain ⟨names,_,-,hxray⟩ := h.xray
    refine ⟨names,b.harvested.filter (SamplePolicy.xray names).allows,List.filter_sublist,?_⟩
    rw [SampleStore.refilled,storePrevious,emptied,hxray]
    rfl
  synthetics := by
    rw [SampleStore.refilled,storePrevious,emptied,h.synthetics]
    rfl

theorem Selects.xray_refilled (h : b.Selects settings offered) :
    b.refilled.xray.samples = (b.harvested.filter b.xray.policy.allows).take 10 := by
  obtain ⟨names,_,-,hxray⟩ := h.xray
  rw [SampleStore.refilled,storePrevious,emptied,hxray]
  rfl

/-- The guid is none of those that are kept in any case. -/
def IsNew (b : SampleStore) (t : Sample) : Prop := ∀ f ∈ b.forcePersist.samples, f.guid ≠ t.guid

theorem Selects.le_of_isNew (h : b.Selects settings offered) (ht : t ∈ offered) (hforce : t.forcePersist = true)
    (hnew : b.IsNew t) (hs : s ∈ b.forcePersist.samples) : t.duration ≤ s.duration := by
  have hnot : t ∉ b.forcePersist.samples := fun hmem => hnew t hmem rfl
  rw [h.forcePersist] at hs hnot
  exact le_of_notMem_take hs (List.mem_filter.2 ⟨ht,hforce⟩) hnot

theorem Selects.forcePersist_of_mem (h : b.Selects settings offered) (hs : s ∈ b.forcePersist.samples) :
    s.forcePersist = true := by
  rw [h.forcePersist] at hs
  have hmem := mem_longestFirst.1 (List.mem_of_mem_take hs)
  exact List.of_mem_filter hmem

theorem Selects.first_decreasing (h : b.Selects settings offered) :
    (firstOfEachGuid b.forcePersist.samples).Pairwise fun x y => y.duration ≤ x.duration := by
  refine List.Pairwise.sublist (firstOfEachGuid_sublist _) ?_
  rw [h.forcePersist]
  exact (longestFirst_spec _).decreasing.sublist (List.take_sublist ..)

theorem Selects.first_length_le (h : b.Selects settings offered) :
    (firstOfEachGuid b.forcePersist.samples).length ≤ 15 := by
  refine (firstOfEachGuid_sublist _).length_le.trans ?_
  rw [h.forcePersist]
  exact List.length_take_le ..

/-- Behind the first samples of each guid that are kept come samples with guids of their own. -/
theorem Selects.forced_eq (h : b.Selects settings offered) :
    ∃ rest : List Sample, b.forced = longestFirst (firstOfEachGuid b.forcePersist.samples ++ rest) ∧
      ∀ t ∈ rest, t ∈ offered ∧ b.IsNew t := by
  obtain ⟨rest,hrest⟩ := firstOfEachGuid_isPrefix b.forcePersist.samples (b.xray.samples ++ b.synthetics.samples)
  refine ⟨rest,by rw [forced,List.append_assoc,hrest],fun t ht => ⟨?_,fun f hf hguid => ?_⟩⟩
  · have hall := (firstOfEachGuid_sublist _).subset (hrest ▸ List.mem_append_right _ ht)
    rw [← List.append_assoc] at hall
    exact h.held_subset (List.mem_append_left _ hall)
  · obtain ⟨first,hfirst,hsame⟩ := exists_mem_firstOfEachGuid hf
    have hdistinct := distinctGuids_firstOfEachGuid (b.forcePersist.samples ++ (b.xray.samples ++ b.synthetics.samples))
    rw [← hrest,DistinctGuids,List.map_append] at hdistinct
    exact List.disjoint_of_nodup_append hdistinct (List.mem_map_of_mem hfirst)
      (List.mem_map.2 ⟨t,ht,(hsame.trans hguid).symm⟩)

theorem Selects.isNew_of_mem_unforced (h : b.Selects settings offered) (ht : t ∈ b.unforced) :
    t ∈ offered ∧ b.IsNew t := by
  obtain ⟨hslowest,hnew⟩ := mem_unforced.1 ht
  refine ⟨h.held_subset (List.mem_append_right _ hslowest),fun f hf hguid => ?_⟩
  obtain ⟨first,hfirst,hsame⟩ := exists_mem_forced (List.mem_append_left _ (List.mem_append_left _ hf))
  exact hnew first hfirst (hsame.trans hguid)

/-- Of the samples that are due, those that are kept stand in front of the others that are to be kept in any case. -/
theorem Selects.filter_due (h : b.Selects settings offered) :
    ∃ behind : List Sample, b.due.filter (·.forcePersist) = firstOfEachGuid b.forcePersist.samples ++ behind ∧
      ∀ t ∈ behind, t ∈ offered ∧ t.forcePersist = true ∧ b.IsNew t := by
  obtain ⟨rest,hforced,hrest⟩ := h.forced_eq
  have hkept : ∀ f ∈ firstOfEachGuid b.forcePersist.samples, f ∈ b.forcePersist.samples :=
    (firstOfEachGuid_sublist _).subset
  have hfilter : (firstOfEachGuid b.forcePersist.samples).filter (·.forcePersist) =
      firstOfEachGuid b.forcePersist.samples :=
    List.filter_eq_self.2 fun f hf => h.forcePersist_of_mem (hkept f hf)
  have hle : ∀ f ∈ firstOfEachGuid b.forcePersist.samples, ∀ t ∈ rest.filter (·.forcePersist),
      t.duration ≤ f.duration := by
    intro f hf t ht
    obtain ⟨ht,hforce⟩ := List.mem_filter.1 ht
    exact h.le_of_isNew (hrest t ht).1 hforce (hrest t ht).2 (hkept f hf)
  -- Sorting moves nothing past those that are kept, for what has a new guid is not longer.
  refine ⟨longestFirst (rest.filter (·.forcePersist)) ++ b.unforced.filter (·.forcePersist),?_,fun t ht => ?_⟩
  · rw [due_eq h.slowest_length_le,hforced,List.filter_append,filter_longestFirst,List.filter_append,hfilter,
      longestFirst_append_of_le h.first_decreasing hle,List.append_assoc]
  · rcases List.mem_append.1 ht with ht | ht
    · obtain ⟨ht,hforce⟩ := List.mem_filter.1 (mem_longestFirst.1 ht)
      exact ⟨(hrest t ht).1,hforce,(hrest t ht).2⟩
    · obtain ⟨ht,hforce⟩ := List.mem_filter.1 ht
      exact ⟨(h.isNew_of_mem_unforced ht).1,hforce,(h.isNew_of_mem_unforced ht).2⟩

theorem Selects.mem_forcePersist_refilled (h : b.Selects settings offered) (hs : s ∈ b.forcePersist.samples)
    (hdue : s ∈ b.harvested) : s ∈ b.refilled.forcePersist.samples := by
  obtain ⟨behind,hfilter,hbehind⟩ := h.filter_due
  have hstart : b.harvested.filter (·.forcePersist) <+: b.due.filter (·.forcePersist) :=
    (List.take_prefix 20 b.due).filter _
  rw [hfilter] at hstart
  rw [h.refilled.forcePersist]
  refine mem_take_of_isPrefix hstart h.first_decreasing (fun f hf t ht => ?_) h.first_length_le
    (List.mem_filter.2 ⟨hdue,h.forcePersist_of_mem hs⟩) fun hmem => (hbehind s hmem).2.2 s hs rfl
  obtain ⟨hoffered,hforce,hnew⟩ := hbehind t ht
  exact h.le_of_isNew hoffered hforce hnew ((firstOfEachGuid_sublist _).subset hf)

theorem Selects.mem_slowest_refilled (h : b.Selects settings offered) (hs : s ∈ b.slowest.samples)
    (hdue : s ∈ b.harvested) (halone : ∀ t ∈ b.harvested, t.guid ≠ s.guid → t.duration ≠ s.duration) :
    s ∈ b.refilled.slowest.samples := by
  have hdistinct := distinctGuids_harvested h.slowest_length_le
  rw [h.slowest] at hs
  have hlong := List.of_mem_filter (mem_longestFirst.1 (List.mem_of_mem_take hs))
  have hback : s ∈ b.harvested.filter fun t => decide (settings.transactionThreshold ≤ t.duration) :=
    List.mem_filter.2 ⟨hdue,hlong⟩
  obtain ⟨t,ht,hst⟩ := exists_mem_take_one hback
  rw [h.refilled.slowest]
  -- The first to come back is not shorter; it was offered before, so it is not longer either.
  obtain ⟨htdue,htlong⟩ := List.mem_filter.1 (mem_longestFirst.1 (List.mem_of_mem_take ht))
  have hoffered := h.held_subset (mem_held_of_mem_due h.slowest_length_le (mem_due_of_mem_harvested htdue))
  have hts := le_of_mem_take_one hs (List.mem_filter.2 ⟨hoffered,htlong⟩)
  by_cases hguid : t.guid = s.guid
  · exact hdistinct.eq htdue hdue hguid ▸ ht
  · exact absurd (le_antisymm hts hst) (halone t htdue hguid)

/-- What a harvest hands over, and what the next one does when the samples of the first were given back. -/
def resend (b : SampleStore) : Logged (List Sample × List Sample) := do
  let (first,emptied) ← b.harvest
  let (second,_) ← (emptied.storePrevious first).harvest
  return (first,second)

def ReturnsAll (b : SampleStore) : Prop := ∀ s, s ∈ b.resend.value.2 ↔ s ∈ b.resend.value.1

/-- The sample comes into a buffer again when all of `given` are given back. -/
inductive TakesBack (b : SampleStore) (given : List Sample) (s : Sample) : Prop
  /-- It comes from the buffer of those that are kept in any case. -/
  | forcePersist (held : s ∈ b.forcePersist.samples)
  /-- It is among the first that are under a session now. -/
  | xray (first : s ∈ (given.filter b.xray.policy.allows).take 10)
  /-- It is among the first of synthetic requests. -/
  | synthetics (first : s ∈ (given.filter b.synthetics.policy.allows).take b.synthetics.limit)
  /-- It is the slowest, and no other is as long. -/
  | slowest (held : s ∈ b.slowest.samples) (alone : ∀ t ∈ given, t.guid ≠ s.guid → t.duration ≠ s.duration)

/-- No buffer has more to take back than it has room for, sessions go on, and no other is as long as the slowest. -/
structure RoomForAll (b : SampleStore) (given : List Sample) : Prop where
  sessions : ∀ s ∈ given, s ∈ b.xray.samples → b.xray.policy.allows s = true
  xray : given.countP b.xray.policy.allows ≤ 10
  synthetics : given.countP b.synthetics.policy.allows ≤ b.synthetics.limit
  slowest : ∀ s ∈ b.unforced, ∀ t ∈ given, t.guid ≠ s.guid → t.duration ≠ s.duration

theorem Selects.takesBack (h : b.Selects settings offered) (hroom : b.RoomForAll b.harvested)
    (hs : s ∈ b.harvested) : b.TakesBack b.harvested s := by
  have hdue := mem_due_of_mem_harvested hs
  rw [due_eq h.slowest_length_le] at hdue
  rcases List.mem_append.1 hdue with hforced | hunforced
  · have hheld := mem_of_mem_forced hforced
    simp only [List.mem_append] at hheld
    rcases hheld with (hpersist | hxray) | hsynthetics
    · exact .forcePersist hpersist
    · have hfew := List.countP_eq_length_filter ▸ hroom.xray
      refine .xray ?_
      rw [List.take_of_length_le hfew]
      exact List.mem_filter.2 ⟨hs,hroom.sessions s hs hxray⟩
    · have hfew := List.countP_eq_length_filter ▸ hroom.synthetics
      refine .synthetics ?_
      rw [List.take_of_length_le hfew]
      rw [h.synthetics] at hsynthetics ⊢
      have hid := List.of_mem_filter (List.mem_of_mem_take hsynthetics)
      exact List.mem_filter.2 ⟨hs,hid⟩
  · exact .slowest (mem_unforced.1 hunforced).1 (hroom.slowest s hunforced)

theorem Selects.mem_held_refilled (h : b.Selects settings offered) (hs : s ∈ b.harvested)
    (htakes : b.TakesBack b.harvested s) : s ∈ b.refilled.held := by
  simp only [held,List.mem_append]
  cases htakes with
  | forcePersist hheld => exact .inl (.inl (.inl (h.mem_forcePersist_refilled hheld hs)))
  | xray hfirst =>
    rw [← h.xray_refilled] at hfirst
    exact .inl (.inl (.inr hfirst))
  | synthetics hfirst =>
    rw [h.synthetics] at hfirst
    rw [h.refilled.synthetics]
    exact .inl (.inr hfirst)
  | slowest hheld halone => exact .inr (h.mem_slowest_refilled hheld hs halone)

theorem resend_value (b : SampleStore) : b.resend.value = (b.harvested,b.refilled.harvested) := by
  simp only [resend,Logged.value_bind,harvest_value,Logged.value_pure,refilled]

/-- What came into a buffer again is harvested again, for it is no more than there was. -/
theorem Selects.mem_second (h : b.Selects settings offered) : s ∈ b.resend.value.2 ↔ s ∈ b.refilled.held := by
  rw [resend_value]
  exact mem_harvested_iff h.refilled.slowest_length_le (distinctGuids_harvested h.slowest_length_le)
    b.length_harvested_le h.refilled.held_subset

/-- No harvest after a failed one hands over what the first did not. It hands over again what was kept in any case, the
first ten samples under a session, the first synthetic ones and the slowest one, as far as it is the only one of its
duration. If that is all there was, nothing is lost. -/
theorem resend_returns (settings : Settings) (calls : List StoreCall) :
    let b := (ofSettings settings).run calls
    let first := b.resend.value.1
    let second := b.resend.value.2
    (∀ s ∈ second, s ∈ first) ∧ (∀ s ∈ first, b.TakesBack first s → s ∈ second) ∧
      (b.RoomForAll first → b.ReturnsAll) := by
  intro b first second
  have h : b.Selects settings (BufferCall.offered (calls.flatMap StoreCall.toBuffers)) :=
    (follows_run settings calls).selections
  have hfirst : first = b.harvested := congrArg Prod.fst b.resend_value
  have hback : ∀ s ∈ second, s ∈ first := fun s hs => hfirst ▸ h.refilled.held_subset (h.mem_second.1 hs)
  have htaken : ∀ s ∈ first, b.TakesBack first s → s ∈ second := by
    rw [hfirst]
    exact fun s hs htakes => h.mem_second.2 (h.mem_held_refilled hs htakes)
  refine ⟨hback,htaken,fun hroom s => ⟨hback s,fun hs => htaken s hs ?_⟩⟩
  have hs : s ∈ first := hs
  rw [hfirst] at hroom hs ⊢
  exact h.takesBack hroom hs

/-- A sample that nothing but its duration can bring into a buffer. -/
def plainSample (guid : ℕ) (duration : Time) : Sample where
  transactionName := "other"
  guid := .ofNat guid
  traceId := .ofNat 1
  start := 0
  duration := duration
  totalTime := duration
  sampled := true
  priority := .drawn true ⟨0,by decide⟩
  forcePersist := false

def watchedSample (guid : ℕ) (duration : Time) : Sample :=
  { plainSample guid duration with transactionName := "watched" }

def keptSample (guid : ℕ) (duration : Time) : Sample := { plainSample guid duration with forcePersist := true }

def syntheticSample (guid : ℕ) (duration : Time) : Sample :=
  { plainSample guid duration with syntheticsId := some "monitor" }

def lowSettings : Settings :=
  { transactionThreshold := 0, stackTraceThreshold := 0, samplingTargetPeriod := 1, syntheticsTracesLimit := 1 }

def mixedCalls : List StoreCall :=
  [.setSessions ["watched"],.store (watchedSample 1 1),.store (keptSample 2 2),.store (syntheticSample 3 3),
    .store (plainSample 4 9)]

theorem resend_returns_mixed : ((ofSettings lowSettings).run mixedCalls).resend.value.1.length = 4 ∧
    ((ofSettings lowSettings).run mixedCalls).ReturnsAll := by
  have hsessions : ∀ s ∈ ((ofSettings lowSettings).run mixedCalls).xray.samples,
      ((ofSettings lowSettings).run mixedCalls).xray.policy.allows s = true := by decide +kernel
  have hslowest : (((ofSettings lowSettings).run mixedCalls).unforced.all fun s =>
      ((ofSettings lowSettings).run mixedCalls).resend.value.1.all fun t =>
        decide (t.guid ≠ s.guid → t.duration ≠ s.duration)) = true := by cbv
  simp only [List.all_eq_true,decide_eq_true_eq] at hslowest
  exact ⟨by cbv,(resend_returns lowSettings mixedCalls).2.2
    ⟨fun s _ hs => hsessions s hs,by decide_cbv,by decide_cbv,hslowest⟩⟩

/-- The session is over before the harvest. -/
def endedSession : List StoreCall :=
  [.setSessions ["watched"],.store (watchedSample 1 1),.store (plainSample 2 2),.setSessions []]

/-- There are more samples under the session than it has room for, one of them kept for another reason. -/
def crowdedSession : List StoreCall :=
  .setSessions ["watched"]::(List.range 10).map (fun n => .store (watchedSample (n + 1) (n + 1))) ++
    [.store { watchedSample 11 20 with forcePersist := true }]

def crowdedSynthetics : List StoreCall :=
  [.store (syntheticSample 1 1),.store { syntheticSample 2 5 with forcePersist := true }]

/-- The slowest sample has company. -/
def tiedSamples : List StoreCall := [.store (plainSample 1 10),.store (keptSample 2 10)]

theorem not_returnsAll (guid : SpanId) (hfirst : guid ∈ b.resend.value.1.map Sample.guid)
    (hsecond : guid ∉ b.resend.value.2.map Sample.guid) : ¬b.ReturnsAll := by
  intro hall
  obtain ⟨s,hs,rfl⟩ := List.mem_map.1 hfirst
  exact hsecond (List.mem_map_of_mem ((hall s).2 hs))

theorem resend_loses : ¬((ofSettings lowSettings).run endedSession).ReturnsAll ∧
    ¬((ofSettings lowSettings).run crowdedSession).ReturnsAll ∧
    ¬((ofSettings lowSettings).run crowdedSynthetics).ReturnsAll ∧
    ¬((ofSettings lowSettings).run tiedSamples).ReturnsAll :=
  ⟨not_returnsAll (.ofNat 1) (by decide_cbv) (by decide_cbv),
    not_returnsAll (.ofNat 1) (by decide_cbv) (by decide_cbv),
    not_returnsAll (.ofNat 1) (by decide_cbv) (by decide_cbv),
    not_returnsAll (.ofNat 1) (by decide_cbv) (by decide_cbv)⟩

end SampleStore

end TraceEngine
