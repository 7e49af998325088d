import TraceEngine.Proofs.Coverage

/-! How much of a range is covered, for ranges that may touch. The search and the early stop pass over ranges that
share nothing with the given one, so that the overlap is the number of its instants that are covered; it is at most the
length, it is the sum over two parts, and it can be added up with durations of which there is a longest. -/
namespace TraceEngine

namespace Time

theorem checkedAdd_eq {a b : Time} (h : a+b ≤ longest) : checkedAdd a b = some (a+b) := if_pos h

theorem checkedSub_eq {a b : ℕ} (h : b ≤ a) : checkedSub a b = some (a-b) := if_pos h

end Time

namespace Coverage

open Time (checkedAdd longest)

variable {c : Coverage} {r : TimeRange} {m : ℕ}

/-- If a sum can be held, so can the sum of its first parts. -/
theorem checkedOverlap_eq (h : c.overlap r ≤ longest) : c.checkedOverlap r = some (c.overlap r) := by
  have hfold : ∀ (l : List TimeRange) (sum : ℕ), sum+l.foldr (r.shared · + ·) 0 ≤ longest →
      l.foldlM (fun sum s => checkedAdd sum (r.shared s)) sum = some (sum+l.foldr (r.shared · + ·) 0) := by
    intro l
    induction l with
    | nil => exact fun sum _ => rfl
    | cons s l ih =>
      intro sum hsum
      rw [List.foldr_cons,← Nat.add_assoc] at hsum ⊢
      rw [List.foldlM_cons,Time.checkedAdd_eq ((Nat.le_add_right _ _).trans hsum)]
      exact ih _ hsum
  have hoverlap := hfold _ 0 ((Nat.zero_add _).trans_le h)
  rwa [Nat.zero_add] at hoverlap

theorem Ascending.exists_boundary (hc : c.Ascending) (t : Time) :
    ∃ first, Boundary (fun s => s.stop ≤ t) c first ∧ c.dropWhile (fun s => s.stop ≤ t) = c.drop first := by
  let p := fun s : TimeRange => decide (s.stop ≤ t)
  have hsplit : c.takeWhile p ++ c.dropWhile p = c := List.takeWhile_append_dropWhile
  have hafter : ∀ s ∈ c.dropWhile p, p s = false := fun s hs =>
    not_of_mem_dropWhile (hc.stop_lt.imp fun {a b} hab => by simp only [p,decide_eq_true_eq]; omega) hs
  have hbefore : ∀ s ∈ c.takeWhile p, p s = true := fun s hs => List.mem_takeWhile_imp hs
  have hbound := boundary_append hbefore hafter
  have hdrop : (c.takeWhile p ++ c.dropWhile p).drop (c.takeWhile p).length = c.dropWhile p := List.drop_left
  rw [hsplit] at hbound hdrop
  exact ⟨_,hbound,hdrop.symm⟩

theorem overlap_le (hc : c.Ascending) (r : TimeRange) : c.overlap r ≤ r.stop-r.start := by
  rw [overlap_eq_card hc,← r.card_instants]
  exact Finset.card_le_card Finset.inter_subset_right

theorem overlap_cut (hc : c.Ascending) (hstart : r.start ≤ m) (hstop : m ≤ r.stop) :
    c.overlap r = c.overlap ⟨r.start,m⟩+c.overlap ⟨m,r.stop⟩ := by
  have hparts : r.instants = Finset.Ico r.start m ∪ Finset.Ico m r.stop :=
    (Finset.Ico_union_Ico_eq_Ico hstart hstop).symm
  have hdisjoint : Disjoint (c.instants ∩ Finset.Ico r.start m) (c.instants ∩ Finset.Ico m r.stop) :=
    (Finset.Ico_disjoint_Ico_consecutive r.start m r.stop).mono Finset.inter_subset_right Finset.inter_subset_right
  rw [overlap_eq_card hc,overlap_eq_card hc,overlap_eq_card hc,hparts,Finset.inter_union_distrib_left,
    Finset.card_union_of_disjoint hdisjoint]
  rfl

/-- The overlap of a range with a coverage is the number of nanoseconds that lie in both, whether the range is empty,
reversed or neither and wherever it lies. Thus it is at most the length, it adds up over two parts of the range, and no
sum on the way to it exceeds the longest duration. The search for the first range that counts is for a boundary. -/
theorem Ascending.overlap_measures (hc : c.Ascending) (r : TimeRange) :
    c.overlap r = (c.instants ∩ r.instants).card ∧ c.overlap r ≤ r.stop-r.start ∧
      (∀ m, r.start ≤ m → m ≤ r.stop → c.overlap r = c.overlap ⟨r.start,m⟩+c.overlap ⟨m,r.stop⟩) ∧
      (r.stop ≤ longest → c.checkedOverlap r = some (c.overlap r)) ∧
      ∃ first, Boundary (fun s => s.stop ≤ r.start) c first ∧
        c.overlap r = ((c.drop first).takeWhile fun s => s.start < r.stop).foldr (r.shared · + ·) 0 := by
  refine ⟨overlap_eq_card hc r,overlap_le hc r,fun m => overlap_cut hc,fun hlongest => ?_,?_⟩
  · exact checkedOverlap_eq ((overlap_le hc r).trans ((Nat.sub_le _ _).trans hlongest))
  · obtain ⟨first,hfirst,hdrop⟩ := hc.exists_boundary r.start
    exact ⟨first,hfirst,by rw [overlap,hdrop]⟩

theorem Ascending.overlap_measures_touching :
    Ascending [⟨0,10⟩,⟨10,20⟩,⟨30,40⟩] ∧ overlap [⟨0,10⟩,⟨10,20⟩,⟨30,40⟩] ⟨5,35⟩ = 20 ∧
      checkedOverlap [⟨0,10⟩,⟨10,20⟩,⟨30,40⟩] ⟨5,35⟩ = some 20 := by
  have hc : Ascending [⟨0,10⟩,⟨10,20⟩,⟨30,40⟩] := ⟨by simp,by simp⟩
  obtain ⟨hcard,-,-,hsum,-⟩ := hc.overlap_measures ⟨5,35⟩
  have hoverlap : overlap [⟨0,10⟩,⟨10,20⟩,⟨30,40⟩] ⟨5,35⟩ = 20 := hcard.trans (by decide)
  exact ⟨hc,hoverlap,hoverlap ▸ hsum (by decide)⟩

end Coverage

end TraceEngine
