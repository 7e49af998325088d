import Mathlib.Data.List.Infix
import TraceEngine.Proofs.Sampling.Course
import TraceEngine.Proofs.Sampling.Thinning

/-! How many calls an adaptive sampler answers by yes before it begins a new period: at most as many as its target in
the first period, and at most twice as many in a later one, whatever comes when and whatever is drawn. -/
namespace TraceEngine.AdaptiveSampler

variable {σ : Type} {a : AdaptiveSampler} {draw : ℕ → σ → ℕ × σ} {c : Course σ} {s : AdaptiveState} {n : ℕ}

def SamePeriod (calls : List SamplerCall) : Prop := ∀ e ∈ calls, e.renewed = false

/-- The calls that were answered by yes. -/
def yeses (calls : List SamplerCall) : ℕ := calls.countP SamplerCall.sampled

@[simp] theorem yeses_concat (calls : List SamplerCall) (e : SamplerCall) :
    yeses (calls ++ [e]) = yeses calls + e.sampled.toNat := by
  cases h : e.sampled <;> simp [yeses,h]

/-- Since its period began a sampler has counted all it answered by yes. -/
structure Course.Tallied (c : Course σ) : Prop where
  recent : ∀ stretch, stretch <:+ c.calls → SamePeriod stretch.tail → yeses stretch ≤ c.state.kept
  firstCycle : SamePeriod c.calls → c.state.firstCycle = true

theorem Course.Tallied.call (h : c.Tallied) (now : Time) : (a.call draw c now).Tallied := by
  obtain ⟨sampled,-,-,hstate,hcalls⟩ := a.exists_call draw c now
  constructor
  · intro stretch hsuffix hsame
    rw [hcalls] at hsuffix
    rw [hstate]
    rcases List.suffix_concat_iff.1 hsuffix with rfl | ⟨rest,rfl,hrest⟩
    · exact Nat.zero_le _
    · rw [yeses_concat]
      refine Nat.add_le_add_right ?_ _
      cases rest with
      | nil => exact Nat.zero_le _
      | cons e rest =>
        rw [List.cons_append,List.tail_cons] at hsame
        have hgoes : a.isOver now c.state = false := hsame _ (List.mem_append_right _ (List.mem_singleton_self _))
        rw [renew_of_isOver_eq_false hgoes]
        exact h.recent _ hrest fun d hd => hsame d (List.mem_append_left _ hd)
  · intro hsame
    rw [hcalls] at hsame
    have hgoes : a.isOver now c.state = false := hsame _ (List.mem_append_right _ (List.mem_singleton_self _))
    rw [hstate,renew_of_isOver_eq_false hgoes]
    exact h.firstCycle fun d hd => hsame d (List.mem_append_left _ hd)

theorem tallied_course (a : AdaptiveSampler) (draw : ℕ → σ → ℕ × σ) (start : Time) (source : σ) (times : List Time) :
    (a.course draw start source times).Tallied := by
  induction times using List.reverseRecOn with
  | nil =>
    refine ⟨fun stretch hsuffix _ => ?_,fun _ => rfl⟩
    rw [List.suffix_nil.1 hsuffix]
    exact Nat.zero_le _
  | append_singleton times now ih =>
    rw [course_concat]
    exact ih.call now

theorem exists_course_of_isPrefix {start : Time} {source : σ} {times : List Time} {first : List SamplerCall}
    (h : first <+: (a.course draw start source times).calls) :
    ∃ earlier, (a.course draw start source earlier).calls = first := by
  induction times using List.reverseRecOn with
  | nil => exact ⟨[],(List.prefix_nil.1 h).symm⟩
  | append_singleton times now ih =>
    obtain ⟨sampled,-,-,-,hcalls⟩ := a.exists_call draw (a.course draw start source times) now
    rw [course_concat,hcalls,List.prefix_concat_iff,← hcalls,← course_concat] at h
    rcases h with hall | hearlier
    · exact ⟨_,hall.symm⟩
    · exact ih hearlier

theorem kept_le_of_firstCycle (h : s.kept ≤ a.target) (hfirst : s.firstCycle = true) (drawn : ℕ) :
    s.kept + (a.decides s drawn).toNat ≤ a.target := by
  simp only [decides,hfirst,if_true]
  by_cases hnone : a.target = 0
  · simpa [hnone] using h
  · by_cases hroom : s.kept < a.target
    · simp only [hnone,hroom,if_false,decide_true,Bool.toNat_true]
      exact hroom
    · simpa [hnone,hroom] using h

/-- No more are kept than the number at which the chance has fallen to nothing. -/
theorem kept_le_of_thinning (htarget : a.target ≤ n)
    (hstop : ∀ drawn, a.target ≠ 0 → a.thinning a.target n drawn = false) (h : s.kept ≤ n) (drawn : ℕ) :
    s.kept + (a.decides s drawn).toNat ≤ n := by
  rcases h.eq_or_lt with hfull | hroom
  · have hno : a.decides s drawn = false := by
      have hreached : ¬s.kept < a.target := by omega
      rw [decides]
      split_ifs with hnone hfirst
      · rfl
      · simpa using hreached
      · rw [hfull]
        exact hstop drawn hnone
    rw [hno]
    exact h
  · have hone := Bool.toNat_le (a.decides s drawn)
    omega

variable {start : Time} {source : σ} {times : List Time}

theorem kept_course_le_target (h : (a.course draw start source times).state.firstCycle = true) :
    (a.course draw start source times).state.kept ≤ a.target := by
  induction times using List.reverseRecOn with
  | nil => exact Nat.zero_le _
  | append_singleton times now ih =>
    obtain ⟨sampled,drawn,hsampled,hstate,-⟩ := a.exists_call draw (a.course draw start source times) now
    rw [course_concat,hstate] at h ⊢
    cases hover : a.isOver now (a.course draw start source times).state with
    | false =>
      rw [renew_of_isOver_eq_false hover] at h hsampled ⊢
      rw [hsampled]
      exact kept_le_of_firstCycle (ih h) h drawn
    | true => exact absurd h (by simp [(kept_renew_of_isOver hover).2])

theorem kept_course_le (htarget : a.target ≤ n)
    (hstop : ∀ drawn, a.target ≠ 0 → a.thinning a.target n drawn = false) :
    (a.course draw start source times).state.kept ≤ n := by
  induction times using List.reverseRecOn with
  | nil => exact Nat.zero_le n
  | append_singleton times now ih =>
    obtain ⟨sampled,drawn,hsampled,hstate,-⟩ := a.exists_call draw (a.course draw start source times) now
    rw [course_concat,hstate,hsampled]
    refine kept_le_of_thinning htarget hstop ?_ drawn
    cases hover : a.isOver now (a.course draw start source times).state with
    | false => rwa [renew_of_isOver_eq_false hover]
    | true => simp [(kept_renew_of_isOver hover).1]

theorem yeses_first_le {first : List SamplerCall} (hfirst : first <+: (a.course draw start source times).calls)
    (hsame : SamePeriod first) : yeses first ≤ a.target := by
  obtain ⟨earlier,rfl⟩ := exists_course_of_isPrefix hfirst
  have htallied := a.tallied_course draw start source earlier
  exact (htallied.recent _ List.suffix_rfl fun e he => hsame e (List.mem_of_mem_tail he)).trans
    (kept_course_le_target (htallied.firstCycle hsame))

theorem yeses_le (htarget : a.target ≤ n) (hstop : ∀ drawn, a.target ≠ 0 → a.thinning a.target n drawn = false)
    {stretch : List SamplerCall} (hstretch : stretch <:+: (a.course draw start source times).calls)
    (hsame : SamePeriod stretch.tail) : yeses stretch ≤ n := by
  obtain ⟨before,hend,hbegin⟩ := List.infix_iff_suffix_prefix.1 hstretch
  obtain ⟨earlier,rfl⟩ := exists_course_of_isPrefix hbegin
  exact ((a.tallied_course draw start source earlier).recent stretch hend hsame).trans (kept_course_le htarget hstop)

/-- Before a sampler first begins a new period it answers by yes at most as often as its target says, and afterwards,
from one new period to the next, at most twice as often. The calls that are kept, at most twice the target, must be few
enough to be counted in 64 bits. -/
theorem yeses_course_le (target : ℕ) (period : Time) (draw : ℕ → σ → ℕ × σ) (start : Time) (source : σ)
    (times : List Time) (hfew : min times.length (2 * target) < 2 ^ 64) :
    let calls := ((make target period).course draw start source times).calls
    (∀ first, first <+: calls → SamePeriod first → yeses first ≤ target) ∧
      ∀ stretch, stretch <:+: calls → SamePeriod stretch.tail → yeses stretch ≤ 2 * target := by
  intro calls
  refine ⟨fun first hfirst hsame => yeses_first_le hfirst hsame,fun stretch hstretch hsame => ?_⟩
  rcases Nat.lt_or_ge (2 * target) (2 ^ 64) with hsmall | hlarge
  · have hstop (drawn : ℕ) (hsome : target ≠ 0) : Thinning.exponential target (2 * target) drawn = false :=
      Thinning.exponential_double (Nat.pos_of_ne_zero hsome) hsmall drawn
    exact yeses_le (Nat.le_mul_of_pos_left target (by decide)) hstop hstretch hsame
  · have hlength : calls.length = times.length := by
      rw [← (make target period).map_time_course draw start source times,List.length_map]
    have hshort : yeses stretch ≤ calls.length := List.countP_le_length.trans hstretch.length_le
    omega

/-- Three calls in the first period and three in the next. -/
def twoPeriods : List Time := [5,5,5,10000005,10000006,10000007]

theorem yeses_course_le_twoPeriods : min twoPeriods.length (2 * 2) < 2 ^ 64 ∧
    let calls := ((make 2 10000000).course (fun _ e => (0,e)) 5 () twoPeriods).calls
    SamePeriod (calls.take 3) ∧ yeses (calls.take 3) ≤ 2 ∧
      SamePeriod (calls.drop 3).tail ∧ yeses (calls.drop 3) ≤ 4 := by
  have hfew : min twoPeriods.length (2 * 2) < 2 ^ 64 := by decide
  obtain ⟨hfirst,hlater⟩ := yeses_course_le 2 10000000 (fun _ e => (0,e)) 5 () twoPeriods hfew
  have htake : SamePeriod (((make 2 10000000).course (fun _ e => (0,e)) 5 () twoPeriods).calls.take 3) := by
    rw [SamePeriod]
    decide +kernel
  have hdrop : SamePeriod (((make 2 10000000).course (fun _ e => (0,e)) 5 () twoPeriods).calls.drop 3).tail := by
    rw [SamePeriod]
    decide +kernel
  exact ⟨hfew,htake,hfirst _ (List.take_prefix 3 _) htake,hdrop,hlater _ (List.drop_suffix 3 _).isInfix hdrop⟩

end TraceEngine.AdaptiveSampler
