import Mathlib.Data.Finset.Card
import Mathlib.Data.List.Dedup
import TraceEngine.Proofs.Sample.Store

/-! What a harvest hands over of what the buffers hold. It takes each guid once, the forced samples before one that
stands in the buffer of the slowest alone, and no more than twenty; what it leaves out then is no longer than what it
takes. -/
namespace TraceEngine

variable {a c : List Sample} {s t : Sample}

def guidCount (samples : List Sample) : ℕ := (samples.map Sample.guid).toFinset.card

theorem DistinctGuids.length_eq (h : DistinctGuids a) : a.length = guidCount a := by
  rw [guidCount,List.toFinset_card_of_nodup h,List.length_map]

theorem guidCount_congr (hac : ∀ s ∈ a, ∃ t ∈ c, t.guid = s.guid) (hca : ∀ t ∈ c, ∃ s ∈ a, s.guid = t.guid) :
    guidCount a = guidCount c := by
  have hguids : (a.map Sample.guid).toFinset = (c.map Sample.guid).toFinset := by
    ext guid
    simp only [List.mem_toFinset,List.mem_map]
    constructor
    · rintro ⟨s,hs,rfl⟩
      exact hac s hs
    · rintro ⟨t,ht,rfl⟩
      exact hca t ht
  rw [guidCount,guidCount,hguids]

theorem DistinctGuids.count_eq_one (h : DistinctGuids a) (hs : ∃ t ∈ a, t.guid = s.guid) :
    (a.map Sample.guid).count s.guid = 1 :=
  List.count_eq_one_of_mem h (List.mem_map.2 hs)

namespace SampleStore

variable {b : SampleStore} {settings : Settings} {offered : List Sample}

/-- The samples in the buffers from which all are to be harvested. -/
def forcing (b : SampleStore) : List Sample := b.forcePersist.samples ++ b.xray.samples ++ b.synthetics.samples

theorem length_forced (b : SampleStore) : b.forced.length = guidCount b.forcing := by
  rw [b.distinctGuids_forced.length_eq]
  exact guidCount_congr (fun s hs => ⟨s,mem_of_mem_forced hs,rfl⟩) fun t ht => exists_mem_forced ht

theorem exists_mem_due (h : b.slowest.samples.length ≤ 1) (hs : s ∈ b.held) : ∃ t ∈ b.due, t.guid = s.guid := by
  rw [due_eq h]
  rcases List.mem_append.1 hs with hforcing | hslowest
  · obtain ⟨t,ht,hguid⟩ := exists_mem_forced hforcing
    exact ⟨t,List.mem_append_left _ ht,hguid⟩
  · by_cases hknown : ∃ t ∈ b.forced, t.guid = s.guid
    · obtain ⟨t,ht,hguid⟩ := hknown
      exact ⟨t,List.mem_append_left _ ht,hguid⟩
    · simp only [not_exists,not_and] at hknown
      exact ⟨s,List.mem_append_right _ (mem_unforced.2 ⟨hslowest,hknown⟩),rfl⟩

theorem length_due (h : b.slowest.samples.length ≤ 1) : b.due.length = guidCount b.held := by
  rw [(distinctGuids_due h).length_eq]
  exact guidCount_congr (fun s hs => ⟨s,mem_held_of_mem_due h hs,rfl⟩) fun t ht => exists_mem_due h ht

theorem harvested_eq_due (h : b.slowest.samples.length ≤ 1) (hfew : guidCount b.held ≤ 20) : b.harvested = b.due := by
  rw [harvested]
  exact List.take_of_length_le ((length_due h).trans_le hfew)

/-- If there are many, then those that are forced fill the harvest. -/
theorem harvested_eq_take_forced (h : b.slowest.samples.length ≤ 1) (hmany : ¬guidCount b.held ≤ 20) :
    b.harvested = b.forced.take 20 := by
  have hone : b.unforced.length ≤ 1 := (List.length_filter_le ..).trans h
  have hdue := length_due h
  rw [due_eq h,List.length_append] at hdue
  rw [harvested,due_eq h]
  exact List.take_append_of_le_length (by omega)

theorem length_harvested (h : b.slowest.samples.length ≤ 1) : b.harvested.length = min 20 (guidCount b.held) := by
  rw [harvested,List.length_take,length_due h]

/-- The sample that stands for a guid that is left out is not longer than any that is taken. -/
theorem exists_le_of_notMem (h : b.slowest.samples.length ≤ 1) (hmany : ¬guidCount b.held ≤ 20) (hs : s ∈ b.forcing)
    (hnot : s.guid ∉ b.harvested.map Sample.guid) :
    ∃ t ∈ firstOfEachGuid b.forcing, t.guid = s.guid ∧ ∀ u ∈ b.harvested, t.duration ≤ u.duration := by
  obtain ⟨t,ht,hguid⟩ := exists_mem_firstOfEachGuid hs
  rw [← hguid,harvested_eq_take_forced h hmany] at hnot
  refine ⟨t,ht,hguid,fun u hu => ?_⟩
  rw [harvested_eq_take_forced h hmany] at hu
  exact le_of_notMem_take hu ht fun hmem => hnot (List.mem_map_of_mem hmem)

theorem notMem_guids_forced (hs : s.guid ∉ b.forcing.map Sample.guid) : s.guid ∉ b.forced.map Sample.guid := by
  intro hmem
  obtain ⟨t,ht,hguid⟩ := List.mem_map.1 hmem
  exact hs (List.mem_map.2 ⟨t,mem_of_mem_forced ht,hguid⟩)

theorem notMem_guids_forcing (hs : s ∈ b.unforced) : s.guid ∉ b.forcing.map Sample.guid := by
  intro hmem
  obtain ⟨t,ht,hguid⟩ := List.mem_map.1 hmem
  obtain ⟨u,hu,hsame⟩ := exists_mem_forced ht
  exact (mem_unforced.1 hs).2 u hu (hsame.trans hguid)

/-- What a harvest takes out of a store, and what it leaves. -/
structure Takes (b : SampleStore) (harvested : List Sample) (b' : SampleStore) : Prop where
  length : harvested.length = min 20 (guidCount b.held)
  distinct : DistinctGuids harvested
  parts : ∃ forced alone, harvested = forced ++ alone ∧ (∀ s ∈ forced, s ∈ b.forcing) ∧
    (forced.Pairwise fun s t => t.duration ≤ s.duration) ∧ alone.length ≤ 1 ∧
    ∀ s ∈ alone, s ∈ b.slowest.samples ∧ s.guid ∉ b.forcing.map Sample.guid
  once : guidCount b.held ≤ 20 → ∀ s ∈ b.held, (harvested.map Sample.guid).count s.guid = 1
  forcedLeftOut : 20 < guidCount b.held → ∀ s ∈ b.forcing, s.guid ∉ harvested.map Sample.guid →
    ∃ t ∈ firstOfEachGuid b.forcing, t.guid = s.guid ∧ ∀ u ∈ harvested, t.duration ≤ u.duration
  aloneLeftOut : 20 < guidCount b.held → ∀ s ∈ b.slowest.samples, s.guid ∉ b.forcing.map Sample.guid →
    s.guid ∉ harvested.map Sample.guid
  emptied : b'.held = []
  developer : b'.developer = b.developer

/-- A harvest takes each guid of the four buffers once, up to twenty: those of the forced samples first, the longest in
front, then one that the buffer of the slowest holds alone. If there are more, that one is left out, and so are forced
samples, none of them longer than those that are taken. The buffers are empty then, but for the developer's, which is as
it was. -/
theorem harvest_takes (settings : Settings) (calls : List StoreCall) :
    Takes ((ofSettings settings).run calls) ((ofSettings settings).run calls).harvest.value.1
      ((ofSettings settings).run calls).harvest.value.2 := by
  have h : ((ofSettings settings).run calls).slowest.samples.length ≤ 1 :=
    (follows_run settings calls).selections.slowest_length_le
  generalize (ofSettings settings).run calls = b at h ⊢
  rw [harvest_value]
  refine
    { length := length_harvested h
      distinct := distinctGuids_harvested h
      parts := ?parts
      once := fun hfew s hs => ?once
      forcedLeftOut := fun hmany s hs hnot => exists_le_of_notMem h (Nat.not_le.2 hmany) hs hnot
      aloneLeftOut := fun hmany s _ hnew hmem => ?alone
      emptied := rfl
      developer := rfl }
  case parts =>
    refine ⟨b.forced.take 20,b.unforced.take (20 - b.forced.length),?_,?_,?_,?_,fun s hs => ?_⟩
    · rw [SampleStore.harvested,due_eq h,List.take_append]
    · exact fun s hs => mem_of_mem_forced (List.mem_of_mem_take hs)
    · exact (longestFirst_spec _).decreasing.sublist (List.take_sublist ..)
    · exact (List.length_take_le' ..).trans ((List.length_filter_le ..).trans h)
    · have hunforced := List.mem_of_mem_take hs
      exact ⟨(mem_unforced.1 hunforced).1,notMem_guids_forcing hunforced⟩
  case once =>
    rw [harvested_eq_due h hfew]
    exact (distinctGuids_due h).count_eq_one (exists_mem_due h hs)
  case alone =>
    rw [harvested_eq_take_forced h (Nat.not_le.2 hmany)] at hmem
    exact notMem_guids_forced hnew (List.map_subset _ (List.take_subset ..) hmem)

end SampleStore

end TraceEngine
