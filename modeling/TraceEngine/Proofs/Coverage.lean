import Mathlib.Algebra.BigOperators.Group.List.Basic
import Mathlib.Algebra.Ring.Nat
import Mathlib.Data.Finset.Union
import Mathlib.Data.List.TakeWhile
import Mathlib.Order.Interval.Finset.Nat
import TraceEngine.Coverage

/-! What a coverage stands for: the set of instants in its ranges. Adding a range adds its instants and
keeps the gaps between neighbours, and the overlap with a range counts the instants that both have. -/
namespace TraceEngine

def TimeRange.instants (r : TimeRange) : Finset ℕ := Finset.Ico r.start r.stop

namespace TimeRange

@[simp] theorem mem_instants {r : TimeRange} {x : ℕ} : x ∈ r.instants ↔ r.start ≤ x ∧ x < r.stop := by
  simp [instants]

@[simp] theorem card_instants (r : TimeRange) : r.instants.card = r.stop - r.start := by
  simp [instants]

theorem instants_of_isEmpty {r : TimeRange} (h : r.isEmpty = true) : r.instants = ∅ := by
  simpa [instants,isEmpty] using h

theorem shared_eq_card (r s : TimeRange) : r.shared s = (s.instants ∩ r.instants).card := by
  have h : s.instants ∩ r.instants = Finset.Ico (max r.start s.start) (min r.stop s.stop) := by
    ext x
    simp only [Finset.mem_inter,mem_instants,Finset.mem_Ico]
    omega
  rw [h,Nat.card_Ico,shared]

end TimeRange

namespace Coverage

def instants (c : Coverage) : Finset ℕ := c.toFinset.biUnion TimeRange.instants

theorem mem_instants {c : Coverage} {x : ℕ} : x ∈ c.instants ↔ ∃ r ∈ c, r.start ≤ x ∧ x < r.stop := by
  simp [instants]

@[simp] theorem instants_nil : instants [] = ∅ := rfl

@[simp] theorem instants_cons (r : TimeRange) (c : Coverage) :
    instants (r::c) = r.instants ∪ instants c := by
  simp [instants,Finset.biUnion_insert]

/-- Ranges in ascending order, none empty, that do not overlap. Neighbours may touch. -/
structure Ascending (c : Coverage) : Prop where
  nonempty : ∀ r ∈ c, r.start < r.stop
  apart : c.Pairwise fun r s => r.stop ≤ s.start

theorem Ascending.tail {r : TimeRange} {c : Coverage} (h : Ascending (r::c)) : Ascending c :=
  ⟨fun s hs => h.nonempty s (List.mem_cons_of_mem r hs),(List.pairwise_cons.mp h.apart).2⟩

theorem Ascending.stop_lt {c : Coverage} (h : c.Ascending) : c.Pairwise fun r s => r.stop < s.stop :=
  h.apart.imp_of_mem fun {_ s} _ hs hle => hle.trans_lt (h.nonempty s hs)

theorem Ascending.start_lt {c : Coverage} (h : c.Ascending) : c.Pairwise fun r s => r.start < s.start :=
  h.apart.imp_of_mem fun {r _} hr _ hle => (h.nonempty r hr).trans_le hle

/-- Ranges in ascending order, none empty, with a gap between neighbours. -/
structure Separated (c : Coverage) : Prop where
  nonempty : ∀ r ∈ c, r.start < r.stop
  gap : c.Pairwise fun r s => r.stop < s.start

theorem separated_nil : Separated [] := ⟨by simp,List.Pairwise.nil⟩

theorem Separated.tail {r : TimeRange} {c : Coverage} (h : Separated (r::c)) : Separated c :=
  ⟨fun s hs => h.nonempty s (List.mem_cons_of_mem r hs),(List.pairwise_cons.mp h.gap).2⟩

theorem Separated.ascending {c : Coverage} (h : c.Separated) : c.Ascending :=
  ⟨h.nonempty,h.gap.imp fun hlt => hlt.le⟩

/-- The place where a test that holds of the first ranges ceases to hold. -/
structure Boundary (p : TimeRange → Bool) (c : Coverage) (n : ℕ) : Prop where
  le_length : n ≤ c.length
  before : ∀ s ∈ c.take n, p s = true
  after : ∀ s ∈ c.drop n, p s = false

theorem boundary_append {p : TimeRange → Bool} {c d : Coverage} (hc : ∀ s ∈ c, p s = true) (hd : ∀ s ∈ d, p s = false) :
    Boundary p (c ++ d) c.length where
  le_length := by simp
  before := by simpa using hc
  after := by simpa using hd

theorem not_of_mem_dropWhile {p : TimeRange → Bool} {c : List TimeRange}
    (hp : c.Pairwise fun r s => p s = true → p r = true) {r : TimeRange} (hr : r ∈ c.dropWhile p) :
    p r = false := by
  induction c with
  | nil => simp at hr
  | cons s c ih =>
    obtain ⟨hs,hc⟩ := List.pairwise_cons.mp hp
    by_cases h : p s = true
    · rw [List.dropWhile_cons_of_pos h] at hr
      exact ih hc hr
    · rw [List.dropWhile_cons_of_neg h] at hr
      rcases List.mem_cons.mp hr with rfl | hr
      · simpa using h
      · exact Bool.eq_false_iff.mpr fun hpr => h (hs r hr hpr)

/-- The three parts into which a new range divides a coverage. -/
theorem Separated.split {c : Coverage} (hc : c.Separated) (r : TimeRange) :
    ∃ earlier touched later : List TimeRange,
      c = earlier ++ (touched ++ later) ∧
      c.takeWhile (fun s => s.stop < r.start) = earlier ∧
      (c.dropWhile fun s => s.stop < r.start).takeWhile (fun s => s.start ≤ r.stop) = touched ∧
      (c.dropWhile fun s => s.stop < r.start).dropWhile (fun s => s.start ≤ r.stop) = later ∧
      (∀ s ∈ earlier, s.stop < r.start) ∧ (∀ s ∈ touched, r.start ≤ s.stop ∧ s.start ≤ r.stop) ∧
      ∀ s ∈ later, r.stop < s.start := by
  have hrest : ∀ s ∈ c.dropWhile fun s => s.stop < r.start, r.start ≤ s.stop := by
    intro s hs
    have h := not_of_mem_dropWhile
      (hc.ascending.stop_lt.imp fun {a b} hab => by simp only [decide_eq_true_eq]; omega) hs
    simpa using h
  have hpair := hc.ascending.start_lt.sublist (List.dropWhile_sublist fun s => decide (s.stop < r.start))
  refine ⟨_,_,_,?_,rfl,rfl,rfl,?_,?_,?_⟩
  · rw [List.takeWhile_append_dropWhile,List.takeWhile_append_dropWhile]
  · intro s hs
    simpa using List.mem_takeWhile_imp hs
  · intro s hs
    exact ⟨hrest s ((List.takeWhile_sublist _).subset hs),by simpa using List.mem_takeWhile_imp hs⟩
  · intro s hs
    have h := not_of_mem_dropWhile
      (hpair.imp fun {a b} hab => by simp only [decide_eq_true_eq]; omega) hs
    simpa using h

/-- A range that holds a new range and all that it touches, and ends where one of them ends. -/
structure Merged (r : TimeRange) (touched : List TimeRange) (m : TimeRange) : Prop where
  start_le : m.start ≤ r.start
  le_stop : r.stop ≤ m.stop
  start_le_of_mem : ∀ s ∈ touched, m.start ≤ s.start
  le_stop_of_mem : ∀ s ∈ touched, s.stop ≤ m.stop
  start_eq : m.start = r.start ∨ ∃ s ∈ touched, m.start = s.start
  stop_eq : m.stop = r.stop ∨ ∃ s ∈ touched, m.stop = s.stop

theorem Merged.of_ends {r first last : TimeRange} {touched : List TimeRange} (h : Ascending touched)
    (hfirst : touched.head? = some first) (hlast : touched.getLast? = some last) :
    Merged r touched ⟨min first.start r.start,max last.stop r.stop⟩ := by
  have hfm := List.mem_of_head? hfirst
  have hlm := List.mem_of_getLast? hlast
  obtain ⟨rest,rfl⟩ := List.head?_eq_some_iff.mp hfirst
  obtain ⟨front,he⟩ := List.getLast?_eq_some_iff.mp hlast
  refine ⟨by simp,by simp,?_,?_,?_,?_⟩
  · intro s hs
    have hle : first.start ≤ s.start := by
      rcases List.mem_cons.mp hs with rfl | hs
      · exact le_rfl
      · exact ((List.pairwise_cons.mp h.start_lt).1 s hs).le
    simp only
    omega
  · intro s hs
    have hle : s.stop ≤ last.stop := by
      rw [he] at hs
      rcases List.mem_append.mp hs with hs | hs
      · have hp := h.stop_lt
        rw [he] at hp
        exact ((List.pairwise_append.mp hp).2.2 s hs last (by simp)).le
      · rw [List.mem_singleton.mp hs]
    simp only
    omega
  · rcases Nat.le_total first.start r.start with hle | hle
    · exact Or.inr ⟨first,hfm,Nat.min_eq_left hle⟩
    · exact Or.inl (Nat.min_eq_right hle)
  · rcases Nat.le_total last.stop r.stop with hle | hle
    · exact Or.inl (Nat.max_eq_right hle)
    · exact Or.inr ⟨last,hlm,Nat.max_eq_left hle⟩

/-- What an addition does: the ranges that the new one touches give way to one range. -/
theorem Separated.insert_split {c : Coverage} (hc : c.Separated) {r : TimeRange}
    (hr : r.isEmpty = false) :
    ∃ (earlier touched later : List TimeRange) (m : TimeRange),
      c = earlier ++ (touched ++ later) ∧ c.insert r = earlier ++ m::later ∧ Merged r touched m ∧
      (∀ s ∈ earlier, s.stop < r.start) ∧ (∀ s ∈ touched, r.start ≤ s.stop ∧ s.start ≤ r.stop) ∧
      ∀ s ∈ later, r.stop < s.start := by
  obtain ⟨earlier,touched,later,he,h1,h2,h3,hearlier,htouched,hlater⟩ := hc.split r
  have hsep : Ascending touched := by
    refine ⟨fun s hs => hc.nonempty s (by rw [he]; simp [hs]),?_⟩
    have hapart := hc.ascending.apart
    rw [he] at hapart
    exact (List.pairwise_append.mp (List.pairwise_append.mp hapart).2.1).1
  refine ⟨earlier,touched,later,_,he,by simp only [insert,hr,h1,h2,h3]; rfl,?_,hearlier,htouched,hlater⟩
  cases hh : touched.head? with
  | none =>
    obtain rfl := List.head?_eq_none_iff.mp hh
    exact ⟨le_rfl,le_rfl,by simp,by simp,Or.inl rfl,Or.inl rfl⟩
  | some first =>
    cases hl : touched.getLast? with
    | none =>
      obtain rfl := List.getLast?_eq_none_iff.mp hl
      simp at hh
    | some last => exact Merged.of_ends hsep hh hl

theorem instants_append (c d : Coverage) : instants (c ++ d) = instants c ∪ instants d := by
  ext x
  simp only [Finset.mem_union,mem_instants,List.mem_append]
  grind

theorem instants_insert {c : Coverage} (hc : c.Separated) (r : TimeRange) :
    (c.insert r).instants = c.instants ∪ r.instants := by
  cases hr : r.isEmpty with
  | true => simp [hr,TimeRange.instants_of_isEmpty hr]
  | false =>
    obtain ⟨earlier,touched,later,m,he,hi,hm,-,htouched,-⟩ := hc.insert_split hr
    have hmerged : m.instants = instants touched ∪ r.instants := by
      ext x
      simp only [Finset.mem_union,mem_instants,TimeRange.mem_instants]
      constructor
      · rintro ⟨hstart,hstop⟩
        rcases Nat.lt_or_ge x r.start with hx | hx
        · rcases hm.start_eq with heq | ⟨s,hs,heq⟩
          · omega
          · have := htouched s hs
            exact Or.inl ⟨s,hs,by omega⟩
        · rcases Nat.lt_or_ge x r.stop with hx' | hx'
          · exact Or.inr ⟨hx,hx'⟩
          · rcases hm.stop_eq with heq | ⟨s,hs,heq⟩
            · omega
            · have := htouched s hs
              exact Or.inl ⟨s,hs,by omega⟩
      · rintro (⟨s,hs,hx⟩ | hx)
        · have h1 := hm.start_le_of_mem s hs
          have h2 := hm.le_stop_of_mem s hs
          omega
        · have h1 := hm.start_le
          have h2 := hm.le_stop
          omega
    rw [hi,he]
    simp only [instants_append,instants_cons,hmerged]
    ac_rfl

theorem Separated.insert {c : Coverage} (hc : c.Separated) (r : TimeRange) : (c.insert r).Separated := by
  cases hr : r.isEmpty with
  | true => simpa [hr] using hc
  | false =>
    obtain ⟨earlier,touched,later,m,he,hi,hm,hearlier,htouched,hlater⟩ := hc.insert_split hr
    obtain ⟨hne,hgap⟩ := hc
    rw [he] at hne hgap
    obtain ⟨hgap1,hgap2,hgap3⟩ := List.pairwise_append.mp hgap
    obtain ⟨hgap4,hgap5,hgap6⟩ := List.pairwise_append.mp hgap2
    have hlt : r.start < r.stop := by simpa [TimeRange.isEmpty] using hr
    rw [hi]
    constructor
    · intro s hs
      rcases List.mem_append.mp hs with hs | hs
      · exact hne s (by simp [hs])
      · rcases List.mem_cons.mp hs with rfl | hs
        · have h1 := hm.start_le
          have h2 := hm.le_stop
          omega
        · exact hne s (by simp [hs])
    · refine List.pairwise_append.mpr ⟨hgap1,List.pairwise_cons.mpr ⟨?_,hgap5⟩,?_⟩
      · intro s hs
        rcases hm.stop_eq with heq | ⟨q,hq,heq⟩
        · exact heq ▸ hlater s hs
        · exact heq ▸ hgap6 q hq s hs
      · intro s hs q hq
        rcases List.mem_cons.mp hq with rfl | hq
        · rcases hm.start_eq with heq | ⟨p,hp,heq⟩
          · exact heq ▸ hearlier s hs
          · exact heq ▸ hgap3 s hs p (by simp [hp])
        · exact hgap3 s hs q (by simp [hq])

theorem sum_takeWhile_shared {c : List TimeRange} (hc : c.Pairwise fun r s => r.start < s.start)
    (r : TimeRange) :
    (c.takeWhile fun s => s.start < r.stop).foldr (r.shared · + ·) 0 = (c.map r.shared).sum := by
  induction c with
  | nil => rfl
  | cons s c ih =>
    obtain ⟨hs,hc⟩ := List.pairwise_cons.mp hc
    by_cases h : s.start < r.stop
    · rw [List.takeWhile_cons_of_pos (by simpa using h),List.foldr_cons,ih hc,List.map_cons,
        List.sum_cons]
    · rw [List.takeWhile_cons_of_neg (by simpa using h),List.foldr_nil,List.sum_eq_zero]
      intro n hn
      obtain ⟨q,hq,rfl⟩ := List.mem_map.mp hn
      have hle : s.start ≤ q.start := by
        rcases List.mem_cons.mp hq with rfl | hq
        · exact le_rfl
        · exact (hs q hq).le
      simp only [TimeRange.shared]
      omega

/-- Only ranges that share nothing with the given one are passed over. -/
theorem overlap_eq_sum {c : Coverage} (hc : c.Ascending) (r : TimeRange) :
    c.overlap r = (c.map r.shared).sum := by
  have hpair := hc.start_lt
  unfold overlap
  rw [sum_takeWhile_shared (hpair.sublist (List.dropWhile_sublist _))]
  nth_rewrite 2 [← List.takeWhile_append_dropWhile (p := fun s => decide (s.stop ≤ r.start)) (l := c)]
  rw [List.map_append,List.sum_append,right_eq_add]
  refine List.sum_eq_zero fun n hn => ?_
  obtain ⟨q,hq,rfl⟩ := List.mem_map.mp hn
  have hle : q.stop ≤ r.start := by simpa using List.mem_takeWhile_imp hq
  simp only [TimeRange.shared]
  omega

theorem Ascending.disjoint_head {s : TimeRange} {c : Coverage} (h : Ascending (s::c)) :
    Disjoint s.instants (instants c) := by
  rw [Finset.disjoint_left]
  intro x hx hc
  obtain ⟨q,hq,hx'⟩ := mem_instants.mp hc
  have hapart := (List.pairwise_cons.mp h.apart).1 q hq
  have hx := TimeRange.mem_instants.mp hx
  omega

theorem overlap_eq_card {c : Coverage} (hc : c.Ascending) (r : TimeRange) :
    c.overlap r = (c.instants ∩ r.instants).card := by
  rw [overlap_eq_sum hc]
  induction c with
  | nil => rfl
  | cons s c ih =>
    have hdis : Disjoint (s.instants ∩ r.instants) (instants c ∩ r.instants) :=
      hc.disjoint_head.mono Finset.inter_subset_left Finset.inter_subset_left
    rw [List.map_cons,List.sum_cons,ih hc.tail,instants_cons,Finset.union_inter_distrib_right,
      Finset.card_union_of_disjoint hdis,TimeRange.shared_eq_card]

end Coverage

end TraceEngine
