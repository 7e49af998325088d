import Mathlib.Data.List.Sort
import TraceEngine.Sample.Buffer

/-! Samples in the order of their durations, the longest first and those of one duration as they arrived. The order is
determined by that, so the longest of all can be found by looking at a part, keeping its longest, and going on. -/
namespace TraceEngine

def lasting (d : Time) (samples : List Sample) : List Sample := samples.filter fun s => decide (s.duration = d)

/-- The longest first, and those of one duration as they arrived. -/
structure LongestFirst (samples sorted : List Sample) : Prop where
  perm : sorted.Perm samples
  decreasing : sorted.Pairwise fun s t => t.duration ≤ s.duration
  ties : ∀ d, lasting d sorted = lasting d samples

/-- The first of two samples does not come after the second. -/
def notShorter (s t : Sample) : Bool := decide (t.duration ≤ s.duration)

variable {a b s t : List Sample}

theorem notShorter_trans (x y z : Sample) (hxy : notShorter x y = true) (hyz : notShorter y z = true) :
    notShorter x z = true := by
  simp only [notShorter,decide_eq_true_eq] at *
  exact le_trans hyz hxy

theorem notShorter_total (x y : Sample) : (notShorter x y || notShorter y x) = true := by
  simpa [notShorter] using le_total y.duration x.duration

theorem decreasing_iff :
    (s.Pairwise fun x y => notShorter x y = true) ↔ s.Pairwise fun x y => y.duration ≤ x.duration := by
  simp [notShorter]

theorem lasting_mergeSort (d : Time) (samples : List Sample) :
    lasting d (samples.mergeSort notShorter) = lasting d samples := by
  have hperm : (lasting d (samples.mergeSort notShorter)).Perm (lasting d samples) :=
    (List.mergeSort_perm samples notShorter).filter _
  have hsorted : (lasting d samples).Pairwise fun x y => notShorter x y = true := by
    refine List.pairwise_of_forall_mem_list fun x hx y hy => ?_
    simp only [lasting,List.mem_filter,decide_eq_true_eq] at hx hy
    simp [notShorter,hx.2,hy.2]
  have hsub : (lasting d samples).Sublist (samples.mergeSort notShorter) :=
    List.sublist_mergeSort notShorter_trans notShorter_total hsorted List.filter_sublist
  have hfilter := hsub.filter fun s => decide (s.duration = d)
  rw [lasting,List.filter_filter] at hfilter
  simp only [Bool.and_self] at hfilter
  exact (hfilter.eq_of_length hperm.length_eq.symm).symm

theorem longestFirst_spec (samples : List Sample) : LongestFirst samples (longestFirst samples) where
  perm := List.mergeSort_perm samples notShorter
  decreasing := decreasing_iff.1 (List.pairwise_mergeSort notShorter_trans notShorter_total samples)
  ties d := lasting_mergeSort d samples

@[simp] theorem mem_longestFirst {x : Sample} : x ∈ longestFirst a ↔ x ∈ a := (longestFirst_spec a).perm.mem_iff

theorem mem_of_lasting (h : ∀ d, lasting d s = lasting d t) {x : Sample} (hx : x ∈ s) : x ∈ t := by
  have hmem : x ∈ lasting x.duration t := by
    rw [← h]
    simp [lasting,hx]
  exact List.mem_of_mem_filter hmem

theorem eq_of_lasting (hs : s.Pairwise fun x y => y.duration ≤ x.duration)
    (ht : t.Pairwise fun x y => y.duration ≤ x.duration) (h : ∀ d, lasting d s = lasting d t) : s = t := by
  induction s generalizing t with
  | nil =>
    cases t with
    | nil => rfl
    | cons y t => simpa [lasting] using h y.duration
  | cons x s ih =>
    cases t with
    | nil => simpa [lasting] using h x.duration
    | cons y t =>
      obtain ⟨hx,hs⟩ := List.pairwise_cons.1 hs
      obtain ⟨hy,htail⟩ := List.pairwise_cons.1 ht
      -- Each head is as long as the other, for each stands somewhere in the other list.
      have hyx : y.duration ≤ x.duration := by
        rcases List.mem_cons.1 (mem_of_lasting (fun d => (h d).symm) (List.mem_cons_self (a := y))) with rfl | hmem
        · exact le_rfl
        · exact hx y hmem
      have hxy : x.duration ≤ y.duration := by
        rcases List.mem_cons.1 (mem_of_lasting h (List.mem_cons_self (a := x))) with rfl | hmem
        · exact le_rfl
        · exact hy x hmem
      have hsame : y.duration = x.duration := le_antisymm hyx hxy
      have hhead := h x.duration
      simp only [lasting,List.filter_cons,hsame,decide_true,if_true,List.cons.injEq] at hhead
      obtain ⟨rfl,-⟩ := hhead
      refine congrArg (x::·) (ih hs htail fun d => ?_)
      have hall := h d
      by_cases hd : x.duration = d <;> simpa [lasting,List.filter_cons,hd] using hall

theorem LongestFirst.unique (hs : LongestFirst a s) (ht : LongestFirst a t) : s = t :=
  eq_of_lasting hs.decreasing ht.decreasing fun d => (hs.ties d).trans (ht.ties d).symm

theorem LongestFirst.eq_longestFirst (hs : LongestFirst a s) : s = longestFirst a := hs.unique (longestFirst_spec a)

theorem longestFirst_of_decreasing (h : s.Pairwise fun x y => y.duration ≤ x.duration) : longestFirst s = s :=
  List.mergeSort_of_pairwise (decreasing_iff.2 h)

theorem filter_longestFirst (p : Sample → Bool) (a : List Sample) :
    (longestFirst a).filter p = longestFirst (a.filter p) := by
  have h := longestFirst_spec a
  refine LongestFirst.eq_longestFirst ⟨h.perm.filter p,h.decreasing.sublist List.filter_sublist,fun d => ?_⟩
  have hties := congrArg (List.filter p) (h.ties d)
  simpa [lasting,List.filter_comm p] using hties

theorem longestFirst_append_of_le (ha : a.Pairwise fun x y => y.duration ≤ x.duration)
    (hle : ∀ x ∈ a, ∀ y ∈ b, y.duration ≤ x.duration) : longestFirst (a ++ b) = a ++ longestFirst b := by
  have h := longestFirst_spec b
  refine (LongestFirst.eq_longestFirst ⟨h.perm.append_left a,?_,fun d => ?_⟩).symm
  · exact List.pairwise_append.2 ⟨ha,h.decreasing,fun x hx y hy => hle x hx y (mem_longestFirst.1 hy)⟩
  · have hties := h.ties d
    simp only [lasting] at hties
    simp [lasting,hties]

theorem longestFirst_append_cons {s : Sample} {front behind : List Sample}
    (hfront : ∀ t ∈ front, t.duration < s.duration) (hbehind : ∀ t ∈ behind, t.duration ≤ s.duration) :
    longestFirst (front ++ s::behind) = s::longestFirst (front ++ behind) := by
  have h := longestFirst_spec (front ++ behind)
  refine (LongestFirst.eq_longestFirst ⟨?_,?_,fun d => ?_⟩).symm
  · exact (h.perm.cons s).trans List.perm_middle.symm
  · refine List.pairwise_cons.2 ⟨fun t ht => ?_,h.decreasing⟩
    rcases List.mem_append.1 (mem_longestFirst.1 ht) with ht | ht
    · exact (hfront t ht).le
    · exact hbehind t ht
  · have hties := h.ties d
    simp only [lasting,List.filter_append] at hties
    by_cases hd : s.duration = d
    · have hnone : front.filter (fun t => decide (t.duration = d)) = [] := by
        refine List.filter_eq_nil_iff.2 fun t ht => ?_
        simpa [← hd] using (hfront t ht).ne
      simp [lasting,hd,hties,hnone]
    · simp [lasting,hd,hties]

theorem lasting_merge (hs : s.Pairwise fun x y => y.duration ≤ x.duration) (d : Time) :
    lasting d (s.merge t notShorter) = lasting d s ++ lasting d t := by
  induction s generalizing t with
  | nil => simp [lasting]
  | cons x s ihs =>
    obtain ⟨hx,hrest⟩ := List.pairwise_cons.1 hs
    induction t with
    | nil => simp [lasting]
    | cons y t iht =>
      rw [List.cons_merge_cons]
      by_cases hxy : notShorter x y = true
      · rw [if_pos hxy]
        have h := ihs (t := y::t) hrest
        by_cases hd : x.duration = d <;> simpa [lasting,List.filter_cons,hd] using h
      · rw [if_neg hxy]
        simp only [notShorter,decide_eq_true_eq,not_le] at hxy
        by_cases hd : y.duration = d
        · have hshort : lasting d (x::s) = [] := by
            refine List.filter_eq_nil_iff.2 fun z hz => ?_
            have hz' : z.duration ≤ x.duration := by
              rcases List.mem_cons.1 hz with rfl | hz
              · exact le_rfl
              · exact hx z hz
            simpa [← hd] using (lt_of_le_of_lt hz' hxy).ne
          rw [hshort] at iht ⊢
          simpa [lasting,List.filter_cons,hd] using iht
        · simpa [lasting,List.filter_cons,hd] using iht

theorem longestFirst_append (a b : List Sample) :
    longestFirst (a ++ b) = (longestFirst a).merge (longestFirst b) notShorter := by
  have ha := longestFirst_spec a
  have hb := longestFirst_spec b
  refine LongestFirst.unique (longestFirst_spec _) ⟨?_,?_,fun d => ?_⟩
  · exact (List.merge_perm_append notShorter).trans (ha.perm.append hb.perm)
  · exact decreasing_iff.1 (List.pairwise_merge notShorter_trans notShorter_total _ _
      (decreasing_iff.2 ha.decreasing) (decreasing_iff.2 hb.decreasing))
  · rw [lasting_merge ha.decreasing,ha.ties,hb.ties]
    exact (List.filter_append ..).symm

/-- What comes late in the first list is not among the first of both. -/
theorem take_merge (m : ℕ) (s t : List Sample) :
    ((s.take m).merge t notShorter).take m = (s.merge t notShorter).take m := by
  induction s generalizing t m with
  | nil => simp
  | cons x s ihs =>
    cases m with
    | zero => simp
    | succ m =>
      rw [List.take_succ_cons]
      induction t with
      | nil => simp [List.take_take]
      | cons y t iht =>
        rw [List.cons_merge_cons,List.cons_merge_cons]
        by_cases hxy : notShorter x y = true
        · rw [if_pos hxy,if_pos hxy,List.take_succ_cons,List.take_succ_cons,ihs]
        · rw [if_neg hxy,if_neg hxy,List.take_succ_cons,List.take_succ_cons]
          have hfewer := congrArg (List.take m) iht
          simpa [List.take_take] using hfewer

/-- To keep the longest of a part and go on is to take the longest of all. -/
theorem take_longestFirst_append (m : ℕ) (a b : List Sample) :
    (longestFirst ((longestFirst a).take m ++ b)).take m = (longestFirst (a ++ b)).take m := by
  have hdecreasing : ((longestFirst a).take m).Pairwise fun x y => y.duration ≤ x.duration :=
    (longestFirst_spec a).decreasing.sublist (List.take_sublist m _)
  rw [longestFirst_append,longestFirst_of_decreasing hdecreasing,take_merge,← longestFirst_append]

section First

variable {x y : Sample} {m : ℕ}

theorem mem_take_of_isPrefix {front behind : List Sample} (hstart : a <+: front ++ behind)
    (hfront : front.Pairwise fun x y => y.duration ≤ x.duration)
    (hle : ∀ x ∈ front, ∀ y ∈ behind, y.duration ≤ x.duration) (hlen : front.length ≤ m) (hx : x ∈ a)
    (hnot : x ∉ behind) : x ∈ (longestFirst a).take m := by
  have ha := List.prefix_iff_eq_take.1 hstart
  rw [List.take_append] at ha
  have hmem : x ∈ front.take a.length := by
    rw [ha] at hx
    exact (List.mem_append.1 hx).resolve_right fun h => hnot (List.mem_of_mem_take h)
  have hfew : (front.take a.length).length ≤ m := (List.length_take_le' ..).trans hlen
  rw [ha,longestFirst_append_of_le (hfront.sublist (List.take_sublist ..))
    fun x hx y hy => hle x (List.mem_of_mem_take hx) y (List.mem_of_mem_take hy)]
  rw [List.take_append,List.take_of_length_le hfew]
  exact List.mem_append_left _ hmem

theorem le_of_notMem_take (hx : x ∈ (longestFirst a).take m) (hy : y ∈ a) (hnot : y ∉ (longestFirst a).take m) :
    y.duration ≤ x.duration := by
  have hdecreasing := (longestFirst_spec a).decreasing
  have hmem := mem_longestFirst.2 hy
  rw [← List.take_append_drop m (longestFirst a)] at hmem hdecreasing
  exact (List.pairwise_append.1 hdecreasing).2.2 x hx y ((List.mem_append.1 hmem).resolve_left hnot)

theorem le_of_mem_take_one (hx : x ∈ (longestFirst a).take 1) (hy : y ∈ a) : y.duration ≤ x.duration := by
  by_cases hfirst : y ∈ (longestFirst a).take 1
  · match longestFirst a,hx,hfirst with
    | _::_,hx,hfirst => simp_all
  · exact le_of_notMem_take hx hy hfirst

theorem exists_mem_take_one (hx : x ∈ a) : ∃ y ∈ (longestFirst a).take 1, x.duration ≤ y.duration := by
  have hmem := mem_longestFirst.2 hx
  match h : longestFirst a,hmem with
  | y::rest,_ =>
    have hy : y ∈ (longestFirst a).take 1 := by simp [h]
    exact ⟨y,by simp,le_of_mem_take_one hy hx⟩

end First

end TraceEngine
