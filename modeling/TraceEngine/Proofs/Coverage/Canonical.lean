import TraceEngine.Proofs.Coverage

/-! A coverage depends on the instants alone. Ranges that are added one by one leave a separated coverage of all
their instants, and there is only one such coverage, so neither order nor repetition matters. Every addition replaces
one stretch of neighbours, from the first range that does not end before the new one to the last that does not start
after it. -/
namespace TraceEngine

namespace Coverage

variable {c d : Coverage} {r s : TimeRange}

def ofRanges (rs : List TimeRange) : Coverage := rs.foldl insert []

theorem Separated.foldl_insert (hc : c.Separated) (rs : List TimeRange) :
    (rs.foldl Coverage.insert c).Separated ∧
      (rs.foldl Coverage.insert c).instants = c.instants ∪ instants rs := by
  induction rs generalizing c with
  | nil => exact ⟨hc,by simp⟩
  | cons r rs ih =>
    obtain ⟨hsep,hinst⟩ := ih (hc.insert r)
    refine ⟨hsep,?_⟩
    rw [List.foldl_cons,hinst,instants_insert hc,instants_cons,Finset.union_assoc]

theorem separated_ofRanges (rs : List TimeRange) : (ofRanges rs).Separated := (separated_nil.foldl_insert rs).1

theorem instants_ofRanges (rs : List TimeRange) : (ofRanges rs).instants = instants rs := by
  rw [ofRanges,(separated_nil.foldl_insert rs).2,instants_nil,Finset.empty_union]

theorem Ascending.start_le (h : Ascending (r::c)) {x : ℕ} (hx : x ∈ instants (r::c)) : r.start ≤ x := by
  obtain ⟨q,hq,hle,-⟩ := mem_instants.mp hx
  rcases List.mem_cons.mp hq with rfl | hq
  · exact hle
  · exact ((List.pairwise_cons.mp h.start_lt).1 q hq).le.trans hle

theorem Separated.stop_notMem (h : Separated (r::c)) : r.stop ∉ instants (r::c) := by
  intro hx
  obtain ⟨q,hq,hle,hlt⟩ := mem_instants.mp hx
  rcases List.mem_cons.mp hq with rfl | hq
  · exact hlt.false
  · exact (((List.pairwise_cons.mp h.gap).1 q hq).trans_le hle).false

theorem Separated.start_mem (h : Separated (r::c)) : r.start ∈ instants (r::c) :=
  mem_instants.mpr ⟨r,by simp,le_rfl,h.nonempty r (by simp)⟩

/-- Of two coverages with the same instants none has a first range that starts earlier or ends earlier. -/
theorem Separated.head_le (hc : Separated (r::c)) (hd : Separated (s::d)) (h : instants (r::c) = instants (s::d)) :
    r.start ≤ s.start ∧ s.stop ≤ r.stop := by
  have hstart : r.start ≤ s.start := hc.ascending.start_le (h ▸ hd.start_mem)
  refine ⟨hstart,not_lt.mp fun hlt => hc.stop_notMem ?_⟩
  have hle : s.start ≤ r.start := hd.ascending.start_le (h ▸ hc.start_mem)
  have hr := hc.nonempty r (by simp)
  rw [h]
  exact mem_instants.mpr ⟨s,by simp,by omega,hlt⟩

theorem Separated.ext (hc : c.Separated) (hd : d.Separated) (h : c.instants = d.instants) : c = d := by
  induction c generalizing d with
  | nil =>
    cases d with
    | nil => rfl
    | cons s d => exact absurd (h ▸ hd.start_mem) (Finset.notMem_empty _)
  | cons r c ih =>
    cases d with
    | nil => exact absurd (h ▸ hc.start_mem) (Finset.notMem_empty _)
    | cons s d =>
      obtain ⟨hstart,hstop⟩ := hc.head_le hd h
      obtain ⟨hstart',hstop'⟩ := hd.head_le hc h.symm
      have hhead : r = s := by
        obtain ⟨a,b⟩ := r
        obtain ⟨a',b'⟩ := s
        rw [TimeRange.mk.injEq]
        exact ⟨le_antisymm hstart hstart',le_antisymm hstop' hstop⟩
      subst hhead
      -- What is left after the first range is the same on both sides.
      have hrest : instants c = instants d := by
        rw [instants_cons,instants_cons] at h
        rw [← Finset.union_sdiff_cancel_left hc.ascending.disjoint_head,h,
          Finset.union_sdiff_cancel_left hd.ascending.disjoint_head]
      rw [ih hc.tail hd.tail hrest]

/-- The range that stands for a new one and for all from one place up to another. -/
def spanning (ranges : Coverage) (r : TimeRange) (first last : ℕ) : TimeRange :=
  match ranges[first]?, ranges[last - 1]? with
  | some a, some b => if first < last then ⟨min a.start r.start,max b.stop r.stop⟩ else r
  | _, _ => r

def splice (c : Coverage) (r : TimeRange) (first last : ℕ) : Coverage :=
  c.take first ++ c.spanning r first last::c.drop last

theorem spanning_append (earlier touched later : List TimeRange) (r : TimeRange) :
    spanning (earlier ++ (touched ++ later)) r earlier.length (earlier.length+touched.length) =
      match touched.head?,touched.getLast? with
      | some first,some last => ⟨min first.start r.start,max last.stop r.stop⟩
      | _,_ => r := by
  have hget (i : ℕ) (hi : i < touched.length) :
      (earlier ++ (touched ++ later))[earlier.length+i]? = touched[i]? := by
    rw [List.getElem?_append_right (Nat.le_add_right _ _),Nat.add_sub_cancel_left,List.getElem?_append_left hi]
  cases touched with
  | nil =>
    rw [spanning]
    split <;> simp
  | cons a rest =>
    have hfirst := hget 0 (by simp)
    have hlast := hget rest.length (by simp)
    have hlength : earlier.length+(a::rest).length-1 = earlier.length+rest.length := by simp
    have hlt : earlier.length < earlier.length+(a::rest).length := by simp
    have hgetLast : (a::rest).getLast? = (a::rest)[rest.length]? := List.getLast?_eq_getElem?
    rw [Nat.add_zero] at hfirst
    rw [spanning,hlength,hfirst,hlast,hgetLast]
    simp only [hlt,if_true]
    rfl

theorem Separated.insert_eq_splice (hc : c.Separated) (hr : r.isEmpty = false) :
    ∃ first last, first ≤ last ∧ Boundary (fun s => s.stop < r.start) c first ∧
      Boundary (fun s => s.start ≤ r.stop) (c.drop first) (last-first) ∧ c.insert r = c.splice r first last := by
  obtain ⟨earlier,touched,later,he,h1,h2,h3,hearlier,htouched,hlater⟩ := hc.split r
  have hlt : r.start < r.stop := by simpa [TimeRange.isEmpty] using hr
  have hdrop : c.drop earlier.length = touched ++ later := by rw [he,List.drop_left]
  refine ⟨earlier.length,earlier.length+touched.length,Nat.le_add_right _ _,?_,?_,?_⟩
  · rw [he]
    refine boundary_append (by simpa using hearlier) fun s hs => ?_
    have hne := hc.nonempty s (by rw [he]; exact List.mem_append_right _ hs)
    rw [decide_eq_false_iff_not,not_lt]
    rcases List.mem_append.mp hs with hs | hs
    · exact (htouched s hs).1
    · have := hlater s hs
      omega
  · rw [hdrop,Nat.add_sub_cancel_left]
    exact boundary_append (fun s hs => by simpa using (htouched s hs).2) fun s hs => by simpa using hlater s hs
  · have htake : c.take earlier.length = earlier := by rw [he,List.take_left]
    have hrest : c.drop (earlier.length+touched.length) = later := by
      rw [← List.drop_drop,hdrop,List.drop_left]
    have hmerged := spanning_append earlier touched later r
    rw [← he] at hmerged
    rw [splice,htake,hrest,hmerged]
    simp only [Coverage.insert,hr,h1,h2,h3]
    rfl

/-- Ranges that are added one by one, empty and reversed ones among them, leave a separated coverage of the instants
that lie in one of them. It is the same for every list with the same ranges, in any order and any number of times. Each
further addition puts one range in the place of one stretch; both ends of the stretch are boundaries of a test, so that
any search by halving finds them. -/
theorem ofRanges_canonical (rs : List TimeRange) :
    (ofRanges rs).Separated ∧
      (∀ x, x ∈ (ofRanges rs).instants ↔ ∃ r ∈ rs, r.start ≤ x ∧ x < r.stop) ∧
      (∀ ss : List TimeRange, ss ⊆ rs → rs ⊆ ss → ofRanges ss = ofRanges rs) ∧
      ∀ r : TimeRange, r.isEmpty = false → ∃ first last, first ≤ last ∧
        Boundary (fun s => s.stop < r.start) (ofRanges rs) first ∧
        Boundary (fun s => s.start ≤ r.stop) ((ofRanges rs).drop first) (last-first) ∧
        (ofRanges rs).insert r = (ofRanges rs).splice r first last := by
  have hsep := separated_ofRanges rs
  refine ⟨hsep,fun x => ?_,fun ss hss hrs => ?_,fun r hr => hsep.insert_eq_splice hr⟩
  · rw [instants_ofRanges,mem_instants]
  · refine (separated_ofRanges ss).ext hsep ?_
    ext x
    simp only [instants_ofRanges,mem_instants]
    exact ⟨fun ⟨r,hr,hx⟩ => ⟨r,hss hr,hx⟩,fun ⟨r,hr,hx⟩ => ⟨r,hrs hr,hx⟩⟩

example : [⟨20,30⟩,⟨50,40⟩,⟨0,10⟩,⟨60,70⟩,⟨10,20⟩].foldl Coverage.insert [] = [⟨0,30⟩,⟨60,70⟩] := by decide

end Coverage

end TraceEngine
