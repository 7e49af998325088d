import TraceEngine.Proofs.Sampling.Windows

/-! The period that a sampler is in after a call. Its start moves by whole periods, of which at most `2 ^ 32 - 1` are
counted at a time: if no more have gone by it is the period of the call, and otherwise it is one that is over. -/
namespace TraceEngine.AdaptiveSampler

variable {a : AdaptiveSampler} {s : AdaptiveState} {now : Time}

def gone (a : AdaptiveSampler) (now : Time) (s : AdaptiveState) : ℕ := (now - s.periodStart) / a.period

theorem gone_eq_zero (h : a.isOver now s = false) : a.gone now s = 0 :=
  Nat.div_eq_of_lt (Nat.not_le.1 (of_decide_eq_false h))

theorem renew_of_isOver (h : a.isOver now s = true) : a.renew now s =
    { periodStart := s.periodStart + a.period * (a.gone now s % 2 ^ 32)
      firstCycle := false
      seenLast := if 1 < a.gone now s % 2 ^ 32 then 0 else s.seen } :=
  if_neg (Nat.not_lt.2 (of_decide_eq_true h))

theorem periodStart_renew (a : AdaptiveSampler) (now : Time) (s : AdaptiveState) :
    (a.renew now s).periodStart = s.periodStart + a.gone now s % 2 ^ 32 * a.period := by
  cases h : a.isOver now s with
  | false => simp [renew_of_isOver_eq_false h,gone_eq_zero h]
  | true => rw [renew_of_isOver h,Nat.mul_comm]

theorem seenLast_renew (hmany : 1 < a.gone now s) (hfew : a.gone now s < 2 ^ 32) :
    (a.renew now s).seenLast = 0 := by
  cases h : a.isOver now s with
  | false => simp [gone_eq_zero h] at hmany
  | true => rw [renew_of_isOver h,Nat.mod_eq_of_lt hfew,if_pos hmany]

theorem sub_mul_lt_iff {elapsed period counted : ℕ} (hperiod : 0 < period) (hcounted : counted ≤ elapsed / period) :
    elapsed - counted * period < period ↔ elapsed / period = counted := by
  have hmul : counted * period ≤ elapsed := (Nat.le_div_iff_mul_le hperiod).1 hcounted
  rw [Nat.div_eq_iff hperiod]
  omega

/-- A call is never before the start of the period that the sampler is in after it, and that period starts whole
periods after the one before. The call is in it as long as fewer than `2 ^ 32` periods have gone by, and then nothing
is known of the period before if more than one has. -/
theorem periodStart_sampleAt (target : ℕ) (period : Time) (thinning : Thinning) (drawn : ℕ)
    (hnow : s.periodStart ≤ now) :
    let a := { make target period with thinning := thinning }
    let gone := (now - s.periodStart) / a.period
    let s' := (a.sampleAt now drawn s).2
    s'.periodStart ≤ now ∧ s'.periodStart = s.periodStart + gone % 2 ^ 32 * a.period ∧
      (now - s'.periodStart < a.period ↔ gone < 2 ^ 32) ∧ (1 < gone → gone < 2 ^ 32 → s'.seenLast = 0) := by
  intro a gone s'
  have hperiod : 0 < a.period := period_make target period
  have hcounted : gone % 2 ^ 32 ≤ gone := Nat.mod_le _ _
  have hmul : gone % 2 ^ 32 * a.period ≤ now - s.periodStart := (Nat.le_div_iff_mul_le hperiod).1 hcounted
  have hstart : s'.periodStart = s.periodStart + gone % 2 ^ 32 * a.period := a.periodStart_renew now s
  refine ⟨?_,hstart,?_,seenLast_renew⟩
  · rw [hstart]
    exact (Nat.add_le_add_left hmul _).trans_eq (Nat.add_sub_cancel' hnow)
  · rw [hstart,Nat.sub_add_eq,sub_mul_lt_iff hperiod hcounted]
    exact ⟨fun hall => hall.trans_lt (Nat.mod_lt _ (by decide)),fun hfew => (Nat.mod_eq_of_lt hfew).symm⟩

/-- A sampler of the shortest period that was asked three times in its first one. -/
def asked : AdaptiveState := ((make 10 0).course (fun _ e => (0,e)) 0 () [0,0,7]).state

theorem periodStart_sampleAt_afterThree : asked.periodStart ≤ 3000005 ∧
    let s' := ((make 10 0).sampleAt 3000005 0 asked).2
    s'.periodStart = 3000000 ∧ 3000005 - s'.periodStart < 1000000 ∧ asked.seen = 3 ∧ s'.seenLast = 0 := by
  have hnow : asked.periodStart ≤ 3000005 := by decide +kernel
  obtain ⟨-,hstart,hwithin,hlast⟩ := periodStart_sampleAt 10 0 .exponential 0 hnow
  refine ⟨hnow,hstart.trans (by decide +kernel),hwithin.2 (by decide +kernel),by decide +kernel,?_⟩
  exact hlast (by decide +kernel) (by decide +kernel)

/-- When `2 ^ 32` periods have gone by none is counted. The period begins anew where it began before, its end lies
before the call, and the calls before it are taken for those of the period before. -/
theorem periods_lost :
    let now := 2 ^ 32 * 1000000
    let s' := ((make 10 0).sampleAt now 0 asked).2
    asked.periodStart ≤ now ∧ 1 < (now - asked.periodStart) / (make 10 0).period ∧ s'.periodStart = 0 ∧
      ¬now - s'.periodStart < (make 10 0).period ∧ s'.seenLast = 3 := by
  decide +kernel

end TraceEngine.AdaptiveSampler
