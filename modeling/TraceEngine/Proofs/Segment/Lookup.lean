import Mathlib.Algebra.BigOperators.Group.Finset.Basic
import Mathlib.Algebra.BigOperators.Fin
import Mathlib.Algebra.Order.BigOperators.Group.List
import Mathlib.Algebra.Order.Group.Nat
import TraceEngine.Proofs.Coverage
import TraceEngine.Segment.Tree

/-! Ways to read a tree of segments: the children of a segment, the way up from it, sums over all
segments, and the instants in which segments ran. -/
namespace TraceEngine

namespace Segment

/-- The nanoseconds in which one of the segments ran. -/
def busy (l : List Segment) : Finset ℕ := Coverage.instants (l.map (·.timeRange))

theorem mem_busy {l : List Segment} {x : ℕ} : x ∈ busy l ↔ ∃ s ∈ l, x ∈ s.timeRange.instants := by
  simp [busy,Coverage.mem_instants]

theorem duration_eq_card (s : Segment) : s.duration = s.timeRange.instants.card := by
  simp [duration]

end Segment

namespace SegmentTree

variable {t t' : SegmentTree}

theorem lt_size_of_get? {i : ℕ} {s : Segment} (h : t.get? i = some s) : i < t.size :=
  (Array.getElem?_eq_some_iff.mp h).1

theorem exists_get? {i : ℕ} (h : i < t.size) : ∃ s, t.get? i = some s :=
  ⟨t.segments[i],Array.getElem?_eq_getElem h⟩

theorem get?_inj {i : ℕ} {s s' : Segment} (hs : t.get? i = some s) (hs' : t.get? i = some s') : s = s' :=
  Option.some.inj (hs.symm.trans hs')

theorem get?_eq_none {i : ℕ} (h : t.size ≤ i) : t.get? i = none :=
  Array.getElem?_eq_none h

theorem mem_segments {s : Segment} : s ∈ t.segments.toList ↔ ∃ i, t.get? i = some s := by
  simp [List.mem_iff_getElem?,get?]

def parent? (t : SegmentTree) (i : ℕ) : Option ℕ := (t.get? i).bind (·.parent)

theorem parent?_eq_some {i p : ℕ} :
    t.parent? i = some p ↔ ∃ s, t.get? i = some s ∧ s.parent = some p := by
  simp [parent?,Option.bind_eq_some_iff]

def children (t : SegmentTree) (p : ℕ) : List Segment :=
  t.segments.toList.filter fun s => s.parent = some p

theorem mem_children {p : ℕ} {s : Segment} :
    s ∈ t.children p ↔ ∃ i, t.get? i = some s ∧ s.parent = some p := by
  simp only [children,List.mem_filter,mem_segments,decide_eq_true_eq]
  exact ⟨fun ⟨⟨i,hi⟩,hp⟩ => ⟨i,hi,hp⟩,fun ⟨i,hi,hp⟩ => ⟨⟨i,hi⟩,hp⟩⟩

/-- The segments above a segment, its parent first. -/
def ancestors (t : SegmentTree) (i : ℕ) : List ℕ :=
  match t.parent? i with
  | some p => if p < i then p::t.ancestors p else []
  | none => []
termination_by i

/-- The segments below a segment at any depth. -/
def descendants (t : SegmentTree) (p : ℕ) : List Segment :=
  (List.range t.size).filterMap fun i => if p ∈ t.ancestors i then t.get? i else none

theorem mem_descendants {p : ℕ} {s : Segment} :
    s ∈ t.descendants p ↔ ∃ i, t.get? i = some s ∧ p ∈ t.ancestors i := by
  simp only [descendants,List.mem_filterMap,List.mem_range,Option.ite_none_right_eq_some]
  exact ⟨fun ⟨i,_,hp,hi⟩ => ⟨i,hi,hp⟩,fun ⟨i,hi,hp⟩ => ⟨i,lt_size_of_get? hi,hp,hi⟩⟩

theorem lt_of_mem_ancestors {a i : ℕ} (h : a ∈ t.ancestors i) : a < i := by
  induction i using Nat.strong_induction_on with
  | _ i ih =>
    rw [ancestors] at h
    split at h
    · split at h
      · rename_i p _ hp
        rcases List.mem_cons.mp h with rfl | h
        · exact hp
        · exact (ih p hp h).trans hp
      · simp at h
    · simp at h

theorem ancestors_congr {i : ℕ} (h : ∀ j ≤ i, t'.parent? j = t.parent? j) :
    t'.ancestors i = t.ancestors i := by
  induction i using Nat.strong_induction_on with
  | _ i ih =>
    rw [ancestors,ancestors,h i le_rfl]
    split
    · rename_i p _
      by_cases hp : p < i
      · rw [ih p hp fun j hj => h j (hj.trans hp.le)]
      · simp [hp]
    · rfl

/-- The root stands first and has no parent; every other segment has one, which stands before it. -/
structure Rooted (t : SegmentTree) : Prop where
  nonempty : 0 < t.size
  parent_lt : ∀ {i p s}, t.get? i = some s → s.parent = some p → p < i
  parent_none : ∀ {i s}, t.get? i = some s → (s.parent = none ↔ i = 0)

theorem Rooted.ancestors_eq (ht : t.Rooted) {i p : ℕ} {s : Segment} (hs : t.get? i = some s)
    (hp : s.parent = some p) : t.ancestors i = p::t.ancestors p := by
  rw [ancestors,parent?_eq_some.mpr ⟨s,hs,hp⟩]
  simp [ht.parent_lt hs hp]

theorem Rooted.exists_parent (ht : t.Rooted) {i p : ℕ} {s : Segment} (hs : t.get? i = some s)
    (hp : s.parent = some p) : ∃ q, t.get? p = some q :=
  exists_get? ((ht.parent_lt hs hp).trans (lt_size_of_get? hs))

theorem exists_parent_of_mem_ancestors {a i : ℕ} (h : a ∈ t.ancestors i) :
    ∃ s p, t.get? i = some s ∧ s.parent = some p ∧ (a = p ∨ a ∈ t.ancestors p) := by
  rw [ancestors] at h
  split at h
  · rename_i p hp
    obtain ⟨s,hs,hsp⟩ := parent?_eq_some.mp hp
    split at h
    · exact ⟨s,p,hs,hsp,List.mem_cons.mp h⟩
    · simp at h
  · simp at h

theorem exists_get?_of_mem_ancestors {a i : ℕ} (h : a ∈ t.ancestors i) :
    ∃ s, t.get? a = some s := by
  obtain ⟨s,_,hs,_,_⟩ := exists_parent_of_mem_ancestors h
  exact exists_get? ((lt_of_mem_ancestors h).trans (lt_size_of_get? hs))

theorem ancestors_trans {a m d : ℕ} (ham : a ∈ t.ancestors m) (hmd : m ∈ t.ancestors d) :
    a ∈ t.ancestors d := by
  induction d using Nat.strong_induction_on with
  | _ d ih =>
    rw [ancestors] at hmd ⊢
    split at hmd
    · rename_i p _
      split at hmd
      · rename_i hp
        simp only [hp,if_true]
        rcases List.mem_cons.mp hmd with rfl | hmd
        · exact List.mem_cons_of_mem m ham
        · exact List.mem_cons_of_mem p (ih p hp hmd)
      · simp at hmd
    · simp at hmd

/-- The sum of a weight over all segments. -/
def weigh (w : Segment → ℕ) (t : SegmentTree) : ℕ := (t.segments.toList.map w).sum

theorem weigh_eq_sum (w : Segment → ℕ) (t : SegmentTree) :
    weigh w t = ∑ i ∈ Finset.range t.size, ((t.get? i).map w).getD 0 := by
  rw [weigh,← Fin.sum_univ_getElem,Finset.sum_range]
  refine Fintype.sum_equiv (finCongr (by simp [size])) _ _ fun i => ?_
  have hi : i.val < t.segments.size := by simpa using i.isLt
  change (t.segments.toList.map w)[i.val] = ((t.segments[i.val]?).map w).getD 0
  simp [hi]

theorem le_weigh {w : Segment → ℕ} {i : ℕ} {s : Segment} (hs : t.get? i = some s) : w s ≤ weigh w t :=
  List.single_le_sum (fun _ _ => Nat.zero_le _) _ (List.mem_map_of_mem (mem_segments.mpr ⟨i,hs⟩))

theorem weigh_le {w : Segment → ℕ} {n : ℕ} (h : ∀ {i s}, t.get? i = some s → w s ≤ n) :
    weigh w t ≤ t.size*n := by
  have hsum : (t.segments.toList.map w).sum ≤ (t.segments.toList.map w).length • n := by
    refine List.sum_le_card_nsmul _ n fun x hx => ?_
    obtain ⟨s,hs,rfl⟩ := List.mem_map.mp hx
    obtain ⟨i,hi⟩ := mem_segments.mp hs
    exact h hi
  rwa [List.length_map,smul_eq_mul] at hsum

/-- Trees that differ in one weight differ by it in the sum. -/
theorem weigh_update {w : Segment → ℕ} {i : ℕ} {s s' : Segment} (hsize : t'.size = t.size)
    (hs : t.get? i = some s) (hs' : t'.get? i = some s')
    (h : ∀ j ≠ i, (t'.get? j).map w = (t.get? j).map w) :
    weigh w t' + w s = weigh w t + w s' := by
  have hi : i ∈ Finset.range t.size := Finset.mem_range.mpr (lt_size_of_get? hs)
  have hrest : ∑ j ∈ (Finset.range t.size).erase i, ((t'.get? j).map w).getD 0 =
      ∑ j ∈ (Finset.range t.size).erase i, ((t.get? j).map w).getD 0 :=
    Finset.sum_congr rfl fun j hj => by rw [h j (Finset.ne_of_mem_erase hj)]
  rw [weigh_eq_sum,weigh_eq_sum,hsize,← Finset.add_sum_erase _ _ hi,← Finset.add_sum_erase _ _ hi,hrest,
    hs,hs']
  simp only [Option.map_some,Option.getD_some]
  omega

theorem weigh_congr {w : Segment → ℕ} (hsize : t'.size = t.size)
    (h : ∀ j, (t'.get? j).map w = (t.get? j).map w) : weigh w t' = weigh w t := by
  rw [weigh_eq_sum,weigh_eq_sum,hsize]
  exact Finset.sum_congr rfl fun j _ => by rw [h j]

theorem weigh_push {w : Segment → ℕ} {s : Segment} (hsize : t'.size = t.size+1)
    (hs : t'.get? t.size = some s) (h : ∀ j < t.size, (t'.get? j).map w = (t.get? j).map w) :
    weigh w t' = weigh w t + w s := by
  rw [weigh_eq_sum,weigh_eq_sum,hsize,Finset.sum_range_succ,hs]
  exact congrArg (· + w s) (Finset.sum_congr rfl fun j hj => by rw [h j (Finset.mem_range.mp hj)])

theorem sum_children (t : SegmentTree) (p : ℕ) (q : Segment → Bool) (w : Segment → ℕ) :
    (((t.children p).filter q).map w).sum =
      weigh (fun s => if s.parent = some p ∧ q s = true then w s else 0) t := by
  rw [children,weigh,List.filter_filter]
  induction t.segments.toList with
  | nil => rfl
  | cons s l ih =>
    by_cases h : s.parent = some p ∧ q s = true
    · rw [List.filter_cons_of_pos (by simpa using h.symm),List.map_cons,List.sum_cons,ih]
      simp [h]
    · rw [List.filter_cons_of_neg (by simpa [and_comm] using h),ih]
      simp [h]

end SegmentTree

end TraceEngine
