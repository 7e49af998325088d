import Mathlib.Data.List.Induction
import TraceEngine.Sample.Store
import TraceEngine.Proofs.Sample.Order

/-! What one harvest hands over. Samples of one guid count once, and the slowest sample joins the others only if its
guid is not among them. -/
namespace TraceEngine

variable {a c : List Sample} {s t : Sample}

def DistinctGuids (samples : List Sample) : Prop := (samples.map Sample.guid).Nodup

theorem DistinctGuids.eq (h : DistinctGuids a) (hs : s ∈ a) (ht : t ∈ a) (hguid : s.guid = t.guid) : s = t :=
  List.inj_on_of_nodup_map h hs ht hguid

theorem DistinctGuids.sublist (h : DistinctGuids a) (hsub : c.Sublist a) : DistinctGuids c :=
  List.Nodup.sublist (hsub.map Sample.guid) h

theorem DistinctGuids.length_le (hc : DistinctGuids c) (h : c ⊆ a) : c.length ≤ a.length :=
  (List.subperm_of_subset hc.of_map h).length_le

theorem firstOfEachGuid_concat (a : List Sample) (s : Sample) :
    firstOfEachGuid (a ++ [s]) =
      if (firstOfEachGuid a).any (·.guid = s.guid) then firstOfEachGuid a else firstOfEachGuid a ++ [s] :=
  List.foldl_append

theorem firstOfEachGuid_sublist (a : List Sample) : (firstOfEachGuid a).Sublist a := by
  induction a using List.reverseRecOn with
  | nil => exact .slnil
  | append_singleton a s ih =>
    rw [firstOfEachGuid_concat]
    split
    · exact ih.trans (List.sublist_append_left a [s])
    · exact ih.append (List.Sublist.refl [s])

theorem distinctGuids_firstOfEachGuid (a : List Sample) : DistinctGuids (firstOfEachGuid a) := by
  induction a using List.reverseRecOn with
  | nil => exact List.nodup_nil
  | append_singleton a s ih =>
    rw [firstOfEachGuid_concat]
    split
    · exact ih
    · rename_i hnew
      simp only [List.any_eq_true,decide_eq_true_eq,not_exists,not_and] at hnew
      rw [DistinctGuids] at ih ⊢
      rw [List.map_append]
      refine ih.append (List.nodup_singleton s.guid) ?_
      simpa [List.disjoint_singleton] using hnew

theorem firstOfEachGuid_isPrefix (a c : List Sample) : firstOfEachGuid a <+: firstOfEachGuid (a ++ c) := by
  induction c using List.reverseRecOn with
  | nil => simp
  | append_singleton c s ih =>
    rw [← List.append_assoc,firstOfEachGuid_concat]
    split
    · exact ih
    · exact ih.trans (List.prefix_append _ [s])

theorem exists_mem_firstOfEachGuid (hs : s ∈ a) : ∃ t ∈ firstOfEachGuid a, t.guid = s.guid := by
  induction a using List.reverseRecOn with
  | nil => simp at hs
  | append_singleton a x ih =>
    rcases List.mem_append.1 hs with hs | hs
    · obtain ⟨t,ht,hguid⟩ := ih hs
      exact ⟨t,(firstOfEachGuid_isPrefix a [x]).subset ht,hguid⟩
    · obtain rfl := List.mem_singleton.1 hs
      rw [firstOfEachGuid_concat]
      split
      · rename_i hknown
        simpa using hknown
      · exact ⟨s,by simp,rfl⟩

namespace SampleStore

variable {b : SampleStore}

/-- The samples in the buffers that are harvested together. -/
def held (b : SampleStore) : List Sample :=
  b.forcePersist.samples ++ b.xray.samples ++ b.synthetics.samples ++ b.slowest.samples

theorem distinctGuids_forced (b : SampleStore) : DistinctGuids b.forced :=
  (((longestFirst_spec _).perm.map Sample.guid).nodup_iff).2 (distinctGuids_firstOfEachGuid _)

theorem mem_of_mem_forced (h : s ∈ b.forced) :
    s ∈ b.forcePersist.samples ++ b.xray.samples ++ b.synthetics.samples :=
  (firstOfEachGuid_sublist _).subset (mem_longestFirst.1 h)

theorem exists_mem_forced (h : s ∈ b.forcePersist.samples ++ b.xray.samples ++ b.synthetics.samples) :
    ∃ t ∈ b.forced, t.guid = s.guid := by
  obtain ⟨t,ht,hguid⟩ := exists_mem_firstOfEachGuid h
  exact ⟨t,mem_longestFirst.2 ht,hguid⟩

def unforced (b : SampleStore) : List Sample := b.slowest.samples.filter fun s => !b.forced.any (·.guid = s.guid)

theorem mem_unforced : s ∈ b.unforced ↔ s ∈ b.slowest.samples ∧ ∀ t ∈ b.forced, t.guid ≠ s.guid := by
  simp [unforced]

/-- The buffer of the slowest samples has room for one, so there is no choice among them. -/
theorem unforced_cases (h : b.slowest.samples.length ≤ 1) : b.unforced = [] ∨ ∃ s, b.unforced = [s] := by
  have hlen : b.unforced.length ≤ 1 := (List.length_filter_le ..).trans h
  match b.unforced,hlen with
  | [],_ => exact .inl rfl
  | [s],_ => exact .inr ⟨s,rfl⟩

/-- What there is to hand over. -/
def due (b : SampleStore) : List Sample := b.forced ++ b.unforced?.toList

theorem due_eq (h : b.slowest.samples.length ≤ 1) : b.due = b.forced ++ b.unforced := by
  rw [due,unforced?,← unforced]
  obtain hnone | ⟨s,hone⟩ := unforced_cases h
  · rw [hnone]
    rfl
  · rw [hone]
    rfl

/-- What is handed over. -/
def harvested (b : SampleStore) : List Sample := b.due.take 20

theorem harvest_value (b : SampleStore) : b.harvest.value = (b.harvested,b.emptied) := by
  simp only [harvest]
  split <;> rfl

theorem mem_due_of_mem_harvested (hs : s ∈ b.harvested) : s ∈ b.due := List.mem_of_mem_take hs

theorem length_harvested_le (b : SampleStore) : b.harvested.length ≤ 20 := List.length_take_le ..

theorem distinctGuids_due (h : b.slowest.samples.length ≤ 1) : DistinctGuids b.due := by
  have hone : (b.unforced.map Sample.guid).Nodup := by
    obtain hnone | ⟨s,hone⟩ := unforced_cases h
    · simp [hnone]
    · simp [hone]
  rw [due_eq h,DistinctGuids,List.map_append]
  refine List.Nodup.append b.distinctGuids_forced hone fun guid hforced hunforced => ?_
  obtain ⟨t,ht,rfl⟩ := List.mem_map.1 hforced
  obtain ⟨s,hs,hguid⟩ := List.mem_map.1 hunforced
  exact (mem_unforced.1 hs).2 t ht hguid.symm

theorem distinctGuids_harvested (h : b.slowest.samples.length ≤ 1) : DistinctGuids b.harvested :=
  (distinctGuids_due h).sublist (List.take_sublist 20 b.due)

theorem mem_held_of_mem_due (h : b.slowest.samples.length ≤ 1) (hs : s ∈ b.due) : s ∈ b.held := by
  rw [due_eq h] at hs
  rcases List.mem_append.1 hs with hs | hs
  · exact List.mem_append_left _ (mem_of_mem_forced hs)
  · exact List.mem_append_right _ (mem_unforced.1 hs).1

theorem mem_due_of_mem_held (h : b.slowest.samples.length ≤ 1) (ha : DistinctGuids a) (hheld : b.held ⊆ a)
    (hs : s ∈ b.held) : s ∈ b.due := by
  have hforced {t : Sample} (ht : t ∈ b.forced) : t ∈ a := hheld (List.mem_append_left _ (mem_of_mem_forced ht))
  rw [due_eq h]
  by_cases hknown : ∃ t ∈ b.forced, t.guid = s.guid
  · obtain ⟨t,ht,hguid⟩ := hknown
    obtain rfl := ha.eq (hforced ht) (hheld hs) hguid
    exact List.mem_append_left _ ht
  · rcases List.mem_append.1 hs with hs | hs
    · exact absurd (exists_mem_forced hs) hknown
    · simp only [not_exists,not_and] at hknown
      exact List.mem_append_right _ (mem_unforced.2 ⟨hs,hknown⟩)

theorem mem_harvested_iff (h : b.slowest.samples.length ≤ 1) (ha : DistinctGuids a) (hlen : a.length ≤ 20)
    (hheld : b.held ⊆ a) : s ∈ b.harvested ↔ s ∈ b.held := by
  have hsubset : b.due ⊆ a := fun s hs => hheld (mem_held_of_mem_due h hs)
  have hfew : b.due.length ≤ 20 := ((distinctGuids_due h).length_le hsubset).trans hlen
  rw [harvested,List.take_of_length_le hfew]
  exact ⟨mem_held_of_mem_due h,mem_due_of_mem_held h ha hheld⟩

end SampleStore

end TraceEngine
