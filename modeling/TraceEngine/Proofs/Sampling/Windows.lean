import Mathlib.Algebra.Group.Nat.Defs
import Mathlib.Data.List.Chain
import TraceEngine.Proofs.Sampling.Course

/-! From the creation of an adaptive sampler on, time is cut into windows of one period. The few numbers that the
sampler keeps are counts over all its calls: those in the window of the last call, and those in the window before. -/
namespace TraceEngine.AdaptiveSampler

variable {σ : Type} {a : AdaptiveSampler} {draw : ℕ → σ → ℕ × σ} {c d : Course σ} {s : AdaptiveState}
  {start last now w : ℕ}

def window (a : AdaptiveSampler) (start now : Time) : ℕ := (now - start) / a.period

def Course.within (c : Course σ) (a : AdaptiveSampler) (start : Time) (w : ℕ) : List SamplerCall :=
  c.calls.filter fun e => a.window start e.time = w

/-- The numbers that are kept are those of a window, and no call has come after it. -/
structure Course.Counts (c : Course σ) (a : AdaptiveSampler) (start : Time) (w : ℕ) : Prop where
  periodStart : c.state.periodStart = start + w * a.period
  firstCycle : c.state.firstCycle = true ↔ w = 0
  seen : c.state.seen = (c.within a start w).length
  seenLast : c.state.seenLast = if w = 0 then 0 else (c.within a start (w - 1)).length
  kept : c.state.kept = (c.within a start w).countP SamplerCall.sampled
  latest : ∀ e ∈ c.calls, a.window start e.time ≤ w

theorem window_mono (a : AdaptiveSampler) (start : ℕ) (h : last ≤ now) : a.window start last ≤ a.window start now :=
  Nat.div_le_div_right (Nat.sub_le_sub_right h start)

/-- The number of periods that have gone by since the current one began is the number of windows. -/
theorem elapsed_div (a : AdaptiveSampler) (start last now : ℕ) :
    ((now - (start + a.window start last * a.period)) / a.period : ℕ) =
      a.window start now - a.window start last := by
  rw [Nat.sub_add_eq,Nat.mul_comm,Nat.sub_mul_div]
  rfl

theorem windows_lt (hperiod : 0 < a.period) (hgap : now - last ≤ (2 ^ 32 - 1) * a.period) :
    a.window start now - a.window start last < 2 ^ 32 := by
  have hpositive : (0 : ℕ) < a.period := hperiod
  have hrest : last - start < a.window start last * a.period + a.period := by
    rw [← Nat.succ_mul]
    exact Nat.lt_mul_of_div_lt (Nat.lt_succ_self _) hperiod
  rw [← elapsed_div,Nat.div_lt_iff_lt_mul hperiod]
  omega

theorem renew_of_le (h : a.period ≤ now - s.periodStart) (hfew : (now - s.periodStart) / a.period < 2 ^ 32) :
    a.renew now s =
      { periodStart := s.periodStart + a.period * ((now - s.periodStart) / a.period)
        firstCycle := false
        seenLast := if 1 < (now - s.periodStart) / a.period then 0 else s.seen } := by
  have hmod : (now - s.periodStart) / a.period % Nat.pow 2 32 = (now - s.periodStart) / a.period :=
    Nat.mod_eq_of_lt hfew
  rw [renew,if_neg (Nat.not_lt.2 h),hmod]

theorem renew_of_window_eq (hperiod : 0 < a.period) (hstart : s.periodStart = start + a.window start last * a.period)
    (hsame : a.window start now = a.window start last) : a.renew now s = s := by
  have hdiv := a.elapsed_div start last now
  rw [← hstart,hsame,Nat.sub_self] at hdiv
  have hearly : now - s.periodStart < a.period := (Nat.div_eq_zero_iff.1 hdiv).resolve_left hperiod.ne'
  exact renew_of_isOver_eq_false (decide_eq_false (Nat.not_le.2 hearly))

/-- In a later window there is a new period, which knows the number of calls in the window before. -/
theorem renew_of_window_lt (hperiod : 0 < a.period) (hgap : now - last ≤ (2 ^ 32 - 1) * a.period)
    (hstart : s.periodStart = start + a.window start last * a.period)
    (hlater : a.window start last < a.window start now) :
    a.renew now s =
      { periodStart := start + a.window start now * a.period
        firstCycle := false
        seenLast := if a.window start last = a.window start now - 1 then s.seen else 0 } := by
  have hdiv := a.elapsed_div start last now
  rw [← hstart] at hdiv
  have hfew : (now - s.periodStart) / a.period < 2 ^ 32 := hdiv ▸ windows_lt hperiod hgap
  have hover : a.period ≤ now - s.periodStart := by
    by_contra hearly
    rw [Nat.div_eq_of_lt (Nat.not_le.1 hearly)] at hdiv
    omega
  have hbegin : start + a.window start last * a.period + a.period * (a.window start now - a.window start last) =
      start + a.window start now * a.period := by
    rw [Nat.mul_comm a.period,Nat.add_assoc,← Nat.add_mul,Nat.add_sub_cancel' hlater.le]
  have hseen : (if 1 < a.window start now - a.window start last then 0 else s.seen) =
      if a.window start last = a.window start now - 1 then s.seen else 0 := by
    split <;> split <;> omega
  rw [renew_of_le hover hfew,hdiv,hstart,hbegin,hseen]

namespace Course

theorem within_concat (a : AdaptiveSampler) (start : ℕ) {e : SamplerCall} (hcalls : c.calls ++ [e] = d.calls) (w : ℕ) :
    d.within a start w = c.within a start w ++ if a.window start e.time = w then [e] else [] := by
  rw [within,← hcalls,List.filter_append,List.filter_singleton]
  congr 1
  simp

theorem Counts.within_eq_nil (h : c.Counts a start w) {v : ℕ} (hv : w < v) : c.within a start v = [] := by
  refine List.filter_eq_nil_iff.2 fun e he => ?_
  have hlatest := h.latest e he
  simp only [decide_eq_true_eq]
  omega

theorem Counts.first (source : σ) : (Course.mk { periodStart := start } source []).Counts a start 0 where
  periodStart := by simp
  firstCycle := by simp
  seen := rfl
  seenLast := rfl
  kept := rfl
  latest := by simp

theorem Counts.latest_call (h : c.Counts a start (a.window start last))
    (hlast : a.window start last ≤ a.window start now) :
    ∀ e ∈ (a.call draw c now).calls, a.window start e.time ≤ a.window start now := by
  obtain ⟨sampled,-,-,-,hcalls⟩ := a.exists_call draw c now
  intro e he
  rw [hcalls] at he
  rcases List.mem_append.1 he with he | he
  · exact (h.latest e he).trans hlast
  · rw [List.mem_singleton.1 he]

theorem Counts.call_of_window_eq (hperiod : 0 < a.period) (h : c.Counts a start (a.window start last))
    (hsame : a.window start last = a.window start now) : (a.call draw c now).Counts a start (a.window start now) := by
  obtain ⟨sampled,-,-,hstate,hcalls⟩ := a.exists_call draw c now
  have hwithin := within_concat a start hcalls.symm
  have hbefore : a.window start now ≠ 0 → a.window start now ≠ a.window start now - 1 := by omega
  have hlatest : ∀ e ∈ (a.call draw c now).calls, a.window start e.time ≤ a.window start now := h.latest_call hsame.le
  rw [renew_of_window_eq hperiod h.periodStart hsame.symm] at hstate
  rw [hsame] at h
  constructor
  case latest => exact hlatest
  all_goals rw [hstate]
  case periodStart => exact h.periodStart
  case firstCycle => exact h.firstCycle
  case seen => simp [hwithin,h.seen]
  case kept => cases sampled <;> simp [hwithin,h.kept]
  case seenLast =>
    rw [h.seenLast,hwithin]
    split
    · rfl
    · rename_i hw
      simp [hbefore hw]

theorem Counts.call_of_window_lt (hperiod : 0 < a.period) (h : c.Counts a start (a.window start last))
    (hgap : now - last ≤ (2 ^ 32 - 1) * a.period) (hlater : a.window start last < a.window start now) :
    (a.call draw c now).Counts a start (a.window start now) := by
  obtain ⟨sampled,-,-,hstate,hcalls⟩ := a.exists_call draw c now
  have hwithin := within_concat a start hcalls.symm
  have hpositive : a.window start now ≠ 0 := by omega
  have hbefore : a.window start now ≠ a.window start now - 1 := by omega
  have hnone : c.within a start (a.window start now) = [] := h.within_eq_nil hlater
  rw [renew_of_window_lt hperiod hgap h.periodStart hlater] at hstate
  constructor
  case latest => exact h.latest_call hlater.le
  all_goals rw [hstate]
  case firstCycle => simpa using hpositive
  case seen => simp [hwithin,hnone]
  case kept => cases sampled <;> simp [hwithin,hnone]
  case seenLast =>
    rw [hwithin,if_neg hpositive,if_neg hbefore,List.append_nil]
    split
    · rename_i hnext
      rw [← hnext]
      exact h.seen
    · rw [h.within_eq_nil (by omega)]
      rfl

theorem Counts.call (hperiod : 0 < a.period) (h : c.Counts a start (a.window start last)) (hlast : last ≤ now)
    (hgap : now - last ≤ (2 ^ 32 - 1) * a.period) : (a.call draw c now).Counts a start (a.window start now) := by
  rcases (a.window_mono start hlast).eq_or_lt with hsame | hlater
  · exact h.call_of_window_eq hperiod hsame
  · exact h.call_of_window_lt hperiod hgap hlater

end Course

/-- Calls do not go back, and are not too far apart for the count of periods. -/
def Steady (a : AdaptiveSampler) : List Time → Prop :=
  List.IsChain fun s t => s ≤ t ∧ t - s ≤ (2 ^ 32 - 1) * a.period

theorem counts_foldl (hperiod : 0 < a.period) {times : List Time} (h : c.Counts a start (a.window start last))
    (hsteady : a.Steady (last::times)) :
    (times.foldl (a.call draw) c).Counts a start (a.window start (times.getLastD last)) := by
  induction times generalizing c last with
  | nil => exact h
  | cons now times ih =>
    obtain ⟨⟨hlast,hgap⟩,hrest⟩ := List.isChain_cons_cons.1 hsteady
    rw [List.foldl_cons,List.getLastD_cons]
    exact ih (h.call hperiod hlast hgap) hrest

theorem counts_course (hperiod : 0 < a.period) {times : List Time} (source : σ) (hsteady : a.Steady (start::times)) :
    (a.course draw start source times).Counts a start (a.window start (times.getLastD start)) := by
  have hfirst : a.window start start = 0 := by simp [window]
  refine counts_foldl hperiod ?_ hsteady
  rw [hfirst]
  exact .first source

theorem period_make (target : ℕ) (period : Time) : 0 < (make target period).period :=
  lt_of_lt_of_le (by decide : 0 < shortestPeriod) (Nat.le_max_right period shortestPeriod)

/-- After any call of a sampler whose calls do not go back, its period is the window of the call; it has seen the calls
in this window, and kept those of them that were answered so; and it knows how many calls there were in the window
before. -/
theorem counts_windows (target : ℕ) (period : Time) (thinning : Thinning) (draw : ℕ → σ → ℕ × σ) (source : σ)
    (start now : Time) (times : List Time) (hsteady : (make target period).Steady (start::(times ++ [now]))) :
    let a := { make target period with thinning := thinning }
    let c := a.course draw start source (times ++ [now])
    let w := (now - start) / a.period
    let window (n : ℕ) := c.calls.filter fun e => (e.time - start) / a.period = n
    c.calls.map SamplerCall.time = times ++ [now] ∧
      c.state.periodStart = start + w * a.period ∧ (c.state.firstCycle = true ↔ w = 0) ∧
      c.state.seen = (window w).length ∧
      c.state.seenLast = (if w = 0 then 0 else (window (w - 1)).length) ∧
      c.state.kept = (window w).countP SamplerCall.sampled ∧ c.state.kept ≤ c.state.seen := by
  intro a c w window
  have hperiod : 0 < a.period := period_make target period
  have h : c.Counts a start (a.window start ((times ++ [now]).getLastD start)) :=
    counts_course hperiod source hsteady
  rw [List.getLastD_concat] at h
  refine ⟨a.map_time_course draw start source _,h.periodStart,h.firstCycle,h.seen,h.seenLast,h.kept,?_⟩
  rw [h.kept,h.seen]
  exact List.countP_le_length

/-- Three calls in the first window, the second of them kept as the last, and two in the next one. -/
def twoWindows : List Time := [7,7,8,10000007]

theorem counts_windows_second : (make 2 10000000).Steady (7::(twoWindows ++ [10000009])) ∧
    let c := (make 2 10000000).course (fun _ e => (0,e)) 7 () (twoWindows ++ [10000009])
    c.state.periodStart = 10000007 ∧ c.state.firstCycle = false ∧ c.state.seen = 2 ∧ c.state.seenLast = 3 ∧
      c.state.kept = 2 := by
  have hsteady : (make 2 10000000).Steady (7::(twoWindows ++ [10000009])) := by
    rw [Steady]
    decide
  obtain ⟨-,hstart,hfirst,hseen,hlast,hkept,-⟩ :=
    counts_windows 2 10000000 .exponential (fun _ e => (0,e)) () 7 10000009 twoWindows hsteady
  refine ⟨hsteady,hstart,?_,hseen.trans (by decide +kernel),hlast.trans (by decide +kernel),
    hkept.trans (by decide +kernel)⟩
  exact Bool.eq_false_iff.2 fun h => absurd (hfirst.1 h) (by decide)

end TraceEngine.AdaptiveSampler
