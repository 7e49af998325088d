import TraceEngine.Proofs.Sample.Limit
import TraceEngine.Proofs.Sample.Resend

/-! The slowest sample on top of the forced ones. Forced samples are offered to the buffer of the slowest too, which
holds the first of the longest alone. A harvest adds that one if its guid is not among the forced ones. If the longest
was forced itself, then nothing is added, and the slowest of the others is lost. -/
namespace TraceEngine

variable {s t : Sample}

namespace StoreCall

def sample? : StoreCall → Option Sample
  | store s => some s
  | _ => none

def stored (calls : List StoreCall) : List Sample := calls.filterMap sample?

/-- The buffers that are harvested together lose nothing and are given nothing back. -/
def arrives : StoreCall → Bool
  | store _ | harvestDeveloper | setSessions _ => true
  | storePrevious _ | harvest | reset => false

/-- The first of the longest samples that are stored, with the calls before it and behind. -/
structure FirstLongest (calls first : List StoreCall) (s : Sample) (rest : List StoreCall) : Prop where
  eq : calls = first ++ .store s::rest
  shorter : ∀ t ∈ stored first, t.duration < s.duration
  notLonger : ∀ t ∈ stored rest, t.duration ≤ s.duration

variable {calls first rest : List StoreCall} {call : StoreCall}

theorem stored_append (first rest : List StoreCall) : stored (first ++ rest) = stored first ++ stored rest :=
  List.filterMap_append

theorem FirstLongest.stored_eq (h : FirstLongest calls first s rest) :
    stored calls = stored first ++ s::stored rest := by
  rw [h.eq,stored_append]
  rfl

theorem FirstLongest.le (h : FirstLongest calls first s rest) (ht : t ∈ stored calls) : t.duration ≤ s.duration := by
  rw [h.stored_eq] at ht
  rcases List.mem_append.1 ht with ht | ht
  · exact (h.shorter t ht).le
  · rcases List.mem_cons.1 ht with rfl | ht
    · exact le_rfl
    · exact h.notLonger t ht

theorem FirstLongest.concat (h : FirstLongest calls first s rest) (hle : ∀ t ∈ call.sample?, t.duration ≤ s.duration) :
    FirstLongest (calls ++ [call]) first s (rest ++ [call]) where
  eq := by rw [h.eq,List.append_assoc,List.cons_append]
  shorter := h.shorter
  notLonger t ht := by
    rw [stored_append] at ht
    rcases List.mem_append.1 ht with ht | ht
    · exact h.notLonger t ht
    · exact hle t (by simpa [stored] using ht)

theorem exists_firstLongest (ht : t ∈ stored calls) : ∃ first s rest, FirstLongest calls first s rest := by
  induction calls using List.reverseRecOn generalizing t with
  | nil => simp [stored] at ht
  | append_singleton calls call ih =>
    cases call with
    | store s =>
      by_cases hshorter : ∀ t ∈ stored calls, t.duration < s.duration
      · exact ⟨calls,s,[],rfl,hshorter,by simp [stored]⟩
      · simp only [not_forall,not_lt] at hshorter
        obtain ⟨u,hu,hle⟩ := hshorter
        obtain ⟨first,longest,rest,h⟩ := ih hu
        refine ⟨first,longest,rest ++ [.store s],h.concat fun t ht => ?_⟩
        obtain rfl := Option.some.inj ht
        exact hle.trans (h.le hu)
    | storePrevious | harvest | harvestDeveloper | reset | setSessions =>
      rw [stored_append] at ht
      obtain ⟨first,longest,rest,h⟩ := ih (by simpa [stored,sample?] using ht)
      exact ⟨first,longest,_,h.concat (by simp [sample?])⟩

theorem FirstLongest.longestFirst_filter (h : FirstLongest calls first s rest) {p : Sample → Bool} (hp : p s = true) :
    longestFirst ((stored calls).filter p) = s::longestFirst ((stored first).filter p ++ (stored rest).filter p) := by
  rw [h.stored_eq,List.filter_append,List.filter_cons_of_pos hp]
  exact longestFirst_append_cons (fun t ht => h.shorter t (List.mem_of_mem_filter ht))
    fun t ht => h.notLonger t (List.mem_of_mem_filter ht)

end StoreCall

section Offered

open BufferCall StoreCall

variable {calls : List StoreCall}

theorem StoreCall.offered_append (before : List BufferCall) (h : ∀ call ∈ calls, call.arrives = true) :
    offered (before ++ calls.flatMap toBuffers) = offered before ++ stored calls := by
  induction calls using List.reverseRecOn with
  | nil => simp [stored]
  | append_singleton calls call ih =>
    have ih := ih fun call hcall => h call (List.mem_append_left _ hcall)
    have hcall := h call (by simp)
    rw [List.flatMap_append,List.flatMap_singleton,← List.append_assoc,stored_append,← List.append_assoc,← ih]
    cases call with
    | store s => exact offered_concat _ (.store s)
    | setSessions names => exact offered_concat _ (.setSessions names)
    | harvestDeveloper => simp [toBuffers,stored,sample?]
    | storePrevious | harvest | reset => cases hcall

theorem StoreCall.welcomed_isPrefix (p : SamplePolicy) (before : List BufferCall)
    (h : ∀ call ∈ calls, call.arrives = true) :
    p.welcomed before <+: p.welcomed (before ++ calls.flatMap toBuffers) := by
  induction calls using List.reverseRecOn with
  | nil => simp
  | append_singleton calls call ih =>
    have ih := ih fun call hcall => h call (List.mem_append_left _ hcall)
    have hcall := h call (by simp)
    rw [List.flatMap_append,List.flatMap_singleton,← List.append_assoc]
    refine ih.trans ?_
    cases call with
    | store s =>
      rw [toBuffers,p.welcomed_concat]
      exact List.prefix_append ..
    | setSessions names =>
      rw [toBuffers,p.welcomed_concat]
      exact List.prefix_append ..
    | harvestDeveloper => simp [toBuffers]
    | storePrevious | harvest | reset => cases hcall

end Offered

namespace SampleBuffer

variable {p : SamplePolicy} {before : List BufferCall} {calls : List StoreCall}

theorem run_samples (hrejects : p.rejectsWhenFull = true) (calls : List BufferCall) :
    (run ⟨p,[]⟩ calls).samples = (p.welcomed calls).take (min p.capacity 20) := by
  have h := keeps_run p calls
  cases p with
  | xray | synthetics => exact h
  | slowest | forcePersist | developer => cases hrejects

theorem mem_run_of_store (hrejects : p.rejectsWhenFull = true) (h : ∀ call ∈ calls, call.arrives = true)
    (hstore : ((run ⟨p,[]⟩ before).store s).1 = true) :
    s ∈ (run ⟨p,[]⟩ (before ++ (.store s::calls).flatMap StoreCall.toBuffers)).samples := by
  obtain ⟨hwelcome,hroom⟩ := (store_run_iff p before s).1 hstore
  have hlen := (p.hasRoom_iff ..).1 hroom hrejects
  rw [run_samples hrejects,List.length_take] at hlen
  have hwelcomed : p.welcomed (before ++ [.store s]) = p.welcomed before ++ [s] := by
    rw [p.welcomed_concat]
    simp [BufferCall.clears,BufferCall.offers,hwelcome]
  obtain ⟨more,hmore⟩ := StoreCall.welcomed_isPrefix p (before ++ [.store s]) h
  rw [hwelcomed,List.append_assoc (p.welcomed before)] at hmore
  have hspace : 0 < min p.capacity 20 - (p.welcomed before).length := by
    simp only [hardLimit] at hlen
    omega
  rw [run_samples hrejects,List.flatMap_cons,← List.append_assoc,StoreCall.toBuffers,← hmore,List.take_append]
  obtain ⟨space,hspace⟩ := Nat.exists_eq_add_one.2 hspace
  rw [hspace]
  simp

end SampleBuffer

namespace SampleStore

variable {b : SampleStore} {settings : Settings} {calls first rest : List StoreCall} {before : List BufferCall}

/-- One of the buffers of forced samples takes the sample. -/
def forces (b : SampleStore) (s : Sample) : Bool :=
  (b.forcePersist.store s).1 || (b.xray.store s).1 || (b.synthetics.store s).1

/-- The samples that none of them takes when they are stored. -/
def passedOver (b : SampleStore) : List StoreCall → List Sample
  | [] => []
  | call::calls => (call.sample?.toList.filter fun s => !b.forces s) ++ (b.apply call).passedOver calls

/-- A harvest hands over the slowest of the samples that were passed over, or one of them if several are as slow. -/
def HarvestsSlowest (b : SampleStore) (calls : List StoreCall) : Prop :=
  ∃ s ∈ b.passedOver calls, (∀ t ∈ b.passedOver calls, t.duration ≤ s.duration) ∧
    s ∈ (b.run calls).harvest.value.1

theorem passedOver_append (b : SampleStore) (first rest : List StoreCall) :
    b.passedOver (first ++ rest) = b.passedOver first ++ (b.run first).passedOver rest := by
  induction first generalizing b with
  | nil => rfl
  | cons call first ih =>
    rw [List.cons_append,passedOver,passedOver,ih,List.append_assoc]
    rfl

theorem passedOver_sublist (b : SampleStore) (calls : List StoreCall) :
    (b.passedOver calls).Sublist (StoreCall.stored calls) := by
  induction calls generalizing b with
  | nil => exact .slnil
  | cons call calls ih =>
    have hcall : StoreCall.stored (call::calls) = call.sample?.toList ++ StoreCall.stored calls := by
      cases call <;> rfl
    rw [passedOver,hcall]
    exact List.filter_sublist.append (ih _)

theorem mem_passedOver_store : t ∈ b.passedOver [.store s] ↔ t = s ∧ b.forces t = false := by
  simp [passedOver,StoreCall.sample?]

theorem Follows.emptied (h : b.Follows settings before) : b.emptied.Follows settings (before ++ [.harvest]) :=
  h.concat .harvest rfl rfl rfl rfl

theorem mem_forcing_store (ht : t ∈ (b.store s).2.forcing) : t ∈ b.forcing ∨ t = s ∧ b.forces s = true := by
  simp only [forcing,List.mem_append] at ht
  simp only [forcing,List.mem_append,forces,Bool.or_eq_true]
  rcases ht with (ht | ht) | ht
  · exact (SampleBuffer.mem_store ht).imp (fun h => .inl (.inl h)) fun h => ⟨h.1,.inl (.inl h.2)⟩
  · exact (SampleBuffer.mem_store ht).imp (fun h => .inl (.inr h)) fun h => ⟨h.1,.inl (.inr h.2)⟩
  · exact (SampleBuffer.mem_store ht).imp .inr fun h => ⟨h.1,.inr h.2⟩

section Since

variable (hstart : b.Follows settings (before ++ [.harvest])) (harrives : ∀ call ∈ calls, call.arrives = true)
include hstart harrives

theorem selects_stored : (b.run calls).Selects settings (StoreCall.stored calls) := by
  have hselects := (hstart.run calls).selections
  have hemptied : BufferCall.offered (before ++ [.harvest]) = [] := BufferCall.offered_concat _ .harvest
  rwa [StoreCall.offered_append _ harrives,hemptied,List.nil_append] at hselects

theorem stored_of_mem_forcing (hs : s ∈ (b.run calls).forcing) : s ∈ StoreCall.stored calls :=
  (selects_stored hstart harrives).held_subset (List.mem_append_left _ hs)

theorem notMem_forcing (hdistinct : DistinctGuids (StoreCall.stored calls)) (hs : s ∈ b.passedOver calls) :
    s ∉ (b.run calls).forcing := by
  induction calls using List.reverseRecOn with
  | nil => cases hs
  | append_singleton calls call ih =>
    have hbefore : ∀ call ∈ calls, call.arrives = true := fun call h => harrives call (List.mem_append_left _ h)
    rw [StoreCall.stored_append] at hdistinct
    have ih := ih hbefore (hdistinct.sublist (List.sublist_append_left ..))
    rw [passedOver_append] at hs
    rw [run_concat]
    cases call with
    | store t =>
      have hnew : t ∉ StoreCall.stored calls := fun hmem =>
        List.disjoint_of_nodup_append hdistinct.of_map hmem (List.mem_singleton_self t)
      intro hforcing
      -- A sample that came before is not the new one, and the new one did not come before.
      rcases List.mem_append.1 hs with hearly | hlast
      · rcases mem_forcing_store hforcing with hforcing | ⟨rfl,-⟩
        · exact ih hearly hforcing
        · exact hnew ((passedOver_sublist _ calls).subset hearly)
      · obtain ⟨rfl,hpassed⟩ := mem_passedOver_store.1 hlast
        rcases mem_forcing_store hforcing with hforcing | ⟨-,htaken⟩
        · exact hnew (stored_of_mem_forcing hstart hbefore hforcing)
        · exact Bool.false_ne_true (hpassed.symm.trans htaken)
    | setSessions | harvestDeveloper => exact ih (by simpa [passedOver,StoreCall.sample?] using hs)
    | storePrevious | harvest | reset => cases harrives _ (List.mem_append_right _ (List.mem_singleton_self _))

end Since

section Longest

variable (hstart : b.Follows settings (before ++ [.harvest])) (harrives : ∀ call ∈ calls, call.arrives = true)
  (hfirst : StoreCall.FirstLongest calls first s rest)

include hfirst in
theorem mem_passedOver (hpassed : (b.run first).forces s = false) : s ∈ b.passedOver calls := by
  rw [hfirst.eq,passedOver_append]
  simp [passedOver,StoreCall.sample?,hpassed]

include hfirst in
/-- If the longest of all was passed over and is harvested, then the slowest of those passed over is. -/
theorem harvestsSlowest_of_mem (hpassed : (b.run first).forces s = false) (hs : s ∈ (b.run calls).harvest.value.1) :
    b.HarvestsSlowest calls :=
  ⟨s,mem_passedOver hfirst hpassed,fun _ ht => hfirst.le ((b.passedOver_sublist calls).subset ht),hs⟩

include hstart harrives hfirst

theorem slowest_samples (hlong : settings.transactionThreshold ≤ s.duration) : (b.run calls).slowest.samples = [s] := by
  rw [(selects_stored hstart harrives).slowest,hfirst.longestFirst_filter (decide_eq_true hlong)]
  rfl

theorem mem_forcing (hforces : (b.run first).forces s = true) : s ∈ (b.run calls).forcing := by
  have hthen := hstart.run first
  have hnow := hstart.run calls
  have hrest : ∀ call ∈ rest, call.arrives = true := fun call hcall => harrives call (by simp [hfirst.eq,hcall])
  have hcalls : calls.flatMap StoreCall.toBuffers =
      first.flatMap StoreCall.toBuffers ++ (.store s::rest).flatMap StoreCall.toBuffers := by
    rw [hfirst.eq,List.flatMap_append]
  simp only [forces,Bool.or_eq_true] at hforces
  simp only [forcing,List.mem_append]
  rcases hforces with (hforce | hxray) | hsynthetics
  · rw [hthen.forcePersist] at hforce
    have hwelcome := ((SampleBuffer.store_run_iff ..).1 hforce).1
    rw [SamplePolicy.Steady.afterAll fun _ => rfl] at hwelcome
    have hkept : s.forcePersist = true := hwelcome
    -- This buffer drops the shortest, and none is in front of the first of the longest.
    refine .inl (.inl ?_)
    rw [(selects_stored hstart harrives).forcePersist,hfirst.longestFirst_filter hkept]
    exact List.mem_cons_self ..
  · rw [hthen.xray] at hxray
    -- The other two turn away what comes when they are full, so they drop nothing.
    refine .inl (.inr ?_)
    rw [hnow.xray,hcalls,← List.append_assoc]
    exact SampleBuffer.mem_run_of_store rfl hrest hxray
  · rw [hthen.synthetics] at hsynthetics
    refine .inr ?_
    rw [hnow.synthetics,hcalls,← List.append_assoc]
    exact SampleBuffer.mem_run_of_store rfl hrest hsynthetics

/-- If it was passed over, its guid is not among the forced ones, unless samples share it. -/
theorem notMem_guids_of_distinct (hdistinct : DistinctGuids (StoreCall.stored calls))
    (hpassed : (b.run first).forces s = false) : s.guid ∉ (b.run calls).forcing.map Sample.guid := by
  intro hmem
  obtain ⟨t,ht,hguid⟩ := List.mem_map.1 hmem
  have hs := mem_passedOver hfirst hpassed
  have hstored := (b.passedOver_sublist calls).subset hs
  obtain rfl := hdistinct.eq (stored_of_mem_forcing hstart harrives ht) hstored hguid
  exact notMem_forcing hstart harrives hdistinct hs ht

end Longest

theorem unforced_eq (hs : b.slowest.samples = [s]) (hnew : s.guid ∉ b.forcing.map Sample.guid) : b.unforced = [s] := by
  have hnone : b.forced.any (fun t => decide (t.guid = s.guid)) = false := by
    refine List.any_eq_false.2 fun t ht hguid => ?_
    exact notMem_guids_forced hnew (List.mem_map.2 ⟨t,ht,of_decide_eq_true hguid⟩)
  simp [unforced,hs,hnone]

theorem unforced_eq_nil (hs : b.slowest.samples = [s]) (hknown : s.guid ∈ b.forcing.map Sample.guid) :
    b.unforced = [] := by
  refine List.eq_nil_iff_forall_not_mem.2 fun t ht => ?_
  have hguid := notMem_guids_forcing ht
  obtain rfl := List.mem_singleton.1 (hs ▸ (mem_unforced.1 ht).1)
  exact hguid hknown

theorem harvest_eq (hs : b.slowest.samples = [s]) (hfew : guidCount b.forcing ≤ 19) :
    b.harvest.value.1 = b.forced ++ b.unforced := by
  have hone : b.slowest.samples.length ≤ 1 := by rw [hs,List.length_singleton]
  have hlen : b.unforced.length ≤ 1 := (List.length_filter_le ..).trans hone
  rw [harvest_value,harvested,due_eq hone]
  refine List.take_of_length_le ?_
  rw [List.length_append,length_forced]
  omega

/-- A harvest of stored samples, where there is room for one more than the forced ones and one that was passed over is
long enough. The first of the longest decides. If its guid is among the forced ones, as it is if it was forced itself,
nothing is added to them. Otherwise it is added, and it is the slowest of those passed over. So if no two samples share
a guid, the slowest of those passed over is harvested just if the first of the longest was one of them. -/
theorem harvest_slowest (settings : Settings) (before calls : List StoreCall)
    (harrives : ∀ call ∈ calls, call.arrives = true) :
    let b₀ := ((ofSettings settings).run before).emptied
    let b := b₀.run calls
    guidCount b.forcing ≤ 19 → (∃ t ∈ b₀.passedOver calls, settings.transactionThreshold ≤ t.duration) →
    ∃ first s rest, StoreCall.FirstLongest calls first s rest ∧
      ((b₀.run first).forces s = true → s.guid ∈ b.forcing.map Sample.guid) ∧
      (s.guid ∈ b.forcing.map Sample.guid → b.harvest.value.1 = b.forced) ∧
      (s.guid ∉ b.forcing.map Sample.guid → b.harvest.value.1 = b.forced ++ [s] ∧ b₀.HarvestsSlowest calls) ∧
      (DistinctGuids (StoreCall.stored calls) → (b₀.HarvestsSlowest calls ↔ (b₀.run first).forces s = false)) := by
  intro b₀ b hfew hsome
  have hstart := (follows_run settings before).emptied
  obtain ⟨t,ht,hlong⟩ := hsome
  have hstored := (b₀.passedOver_sublist calls).subset ht
  obtain ⟨first,s,rest,hfirst⟩ := StoreCall.exists_firstLongest hstored
  have hs : b.slowest.samples = [s] := slowest_samples hstart harrives hfirst (hlong.trans (hfirst.le hstored))
  have hforced : (b₀.run first).forces s = true → s.guid ∈ b.forcing.map Sample.guid :=
    fun h => List.mem_map_of_mem (mem_forcing hstart harrives hfirst h)
  have hknown : s.guid ∈ b.forcing.map Sample.guid → b.harvest.value.1 = b.forced := by
    intro hknown
    rw [harvest_eq hs hfew,unforced_eq_nil hs hknown,List.append_nil]
  have hnew : s.guid ∉ b.forcing.map Sample.guid →
      b.harvest.value.1 = b.forced ++ [s] ∧ b₀.HarvestsSlowest calls := by
    intro hnew
    have hharvest : b.harvest.value.1 = b.forced ++ [s] := by rw [harvest_eq hs hfew,unforced_eq hs hnew]
    refine ⟨hharvest,harvestsSlowest_of_mem hfirst (Bool.eq_false_iff.2 (mt hforced hnew)) ?_⟩
    exact hharvest ▸ List.mem_append_right _ (List.mem_singleton_self s)
  refine ⟨first,s,rest,hfirst,hforced,hknown,hnew,fun hdistinct => ⟨?lost,fun hpassed => ?found⟩⟩
  case lost =>
    rintro ⟨u,hu,-,hharvest⟩
    refine Bool.eq_false_iff.2 fun hforces => ?_
    rw [hknown (hforced hforces)] at hharvest
    exact notMem_forcing hstart harrives hdistinct hu (mem_of_mem_forced hharvest)
  case found => exact (hnew (notMem_guids_of_distinct hstart harrives hfirst hdistinct hpassed)).2

def longestUnforced : List StoreCall := [.store (plainSample 1 9),.store (keptSample 2 4)]

theorem harvest_slowest_longestUnforced :
    let b₀ := ((ofSettings lowSettings).run []).emptied
    guidCount (b₀.run longestUnforced).forcing ≤ 19 ∧
      (∃ t ∈ b₀.passedOver longestUnforced, lowSettings.transactionThreshold ≤ t.duration) ∧
      b₀.HarvestsSlowest longestUnforced := by
  intro b₀
  have hpassed : b₀.passedOver longestUnforced = [plainSample 1 9] := rfl
  have hforcing : (b₀.run longestUnforced).forcing = [keptSample 2 4] := by cbv
  have hfew : guidCount (b₀.run longestUnforced).forcing ≤ 19 := by decide_cbv
  have hsome : ∃ t ∈ b₀.passedOver longestUnforced, lowSettings.transactionThreshold ≤ t.duration :=
    ⟨plainSample 1 9,by simp [hpassed],Nat.zero_le _⟩
  obtain ⟨first,s,rest,hfirst,-,-,hnew,-⟩ := harvest_slowest lowSettings [] longestUnforced (by decide) hfew hsome
  refine ⟨hfew,hsome,(hnew ?_).2⟩
  rw [hforcing]
  -- The other sample is shorter, so it is not that one.
  have hstored : StoreCall.stored longestUnforced = [plainSample 1 9,keptSample 2 4] := rfl
  have hle : (plainSample 1 9).duration ≤ s.duration := hfirst.le (by simp [hstored])
  have hs : s = plainSample 1 9 ∨ s = keptSample 2 4 := by
    have hmem : s ∈ StoreCall.stored longestUnforced := by simp [hfirst.stored_eq]
    simpa [hstored] using hmem
  rcases hs with rfl | rfl
  · decide
  · exact absurd hle (by decide)

def longestForced : List StoreCall := [.store (keptSample 1 10),.store (plainSample 2 5)]

theorem harvest_lacks_slowest :
    let b₀ := ((ofSettings lowSettings).run []).emptied
    guidCount (b₀.run longestForced).forcing ≤ 19 ∧
      (∃ t ∈ b₀.passedOver longestForced, lowSettings.transactionThreshold ≤ t.duration) ∧
      ¬b₀.HarvestsSlowest longestForced := by
  intro b₀
  have hpassed : b₀.passedOver longestForced = [plainSample 2 5] := rfl
  have hharvest : (b₀.run longestForced).harvest.value.1 = [keptSample 1 10] := by cbv
  refine ⟨by decide_cbv,⟨plainSample 2 5,by simp [hpassed],Nat.zero_le _⟩,?_⟩
  rintro ⟨s,hs,-,hmem⟩
  rw [hpassed] at hs
  rw [hharvest] at hmem
  obtain rfl := List.mem_singleton.1 hs
  exact absurd (congrArg Sample.guid (List.mem_singleton.1 hmem)) (by decide)

end SampleStore

end TraceEngine
