import Mathlib.Data.List.Induction
import TraceEngine.Sampling.Adaptive

/-! The calls of an adaptive sampler, one after the other, with what each of them does. -/
namespace TraceEngine

/-- When a call came, whether a new period began with it, and its answer. -/
structure SamplerCall where
  time : Time
  renewed : Bool
  sampled : Bool
  deriving DecidableEq, Repr

namespace AdaptiveSampler

variable {σ : Type}

/-- What a sampler has come to: its state, what is left of the source of its draws, and the calls so far. -/
structure Course (σ : Type) where
  state : AdaptiveState
  source : σ
  calls : List SamplerCall := []

def isOver (a : AdaptiveSampler) (now : Time) (s : AdaptiveState) : Bool := decide (a.period ≤ now - s.periodStart)

def call (a : AdaptiveSampler) (draw : ℕ → σ → ℕ × σ) (c : Course σ) (now : Time) : Course σ :=
  let (sampled,state,source) := a.sampleFrom draw now c.state c.source
  ⟨state,source,c.calls ++ [⟨now,a.isOver now c.state,sampled⟩]⟩

/-- All calls from the creation of a sampler on. -/
def course (a : AdaptiveSampler) (draw : ℕ → σ → ℕ × σ) (start : Time) (source : σ) (times : List Time) : Course σ :=
  times.foldl (a.call draw) ⟨{ periodStart := start },source,[]⟩

variable (a : AdaptiveSampler) (draw : ℕ → σ → ℕ × σ) (start : Time) (source : σ) (times : List Time)

theorem course_concat (now : Time) :
    a.course draw start source (times ++ [now]) = a.call draw (a.course draw start source times) now :=
  List.foldl_append

theorem exists_call (c : Course σ) (now : Time) : ∃ sampled drawn, sampled = a.decides (a.renew now c.state) drawn ∧
    (a.call draw c now).state = { a.renew now c.state with
      kept := (a.renew now c.state).kept + sampled.toNat
      seen := (a.renew now c.state).seen + 1 } ∧
    (a.call draw c now).calls = c.calls ++ [⟨now,a.isOver now c.state,sampled⟩] := by
  simp only [call,sampleFrom]
  cases a.bound? now c.state with
  | none => exact ⟨_,0,rfl,rfl,rfl⟩
  | some upper => exact ⟨_,(draw upper c.source).1,rfl,rfl,rfl⟩

theorem map_time_course : (a.course draw start source times).calls.map SamplerCall.time = times := by
  induction times using List.reverseRecOn with
  | nil => rfl
  | append_singleton times now ih =>
    obtain ⟨sampled,-,-,-,hcalls⟩ := a.exists_call draw (a.course draw start source times) now
    rw [course_concat,hcalls,List.map_append,ih]
    rfl

variable {a : AdaptiveSampler} {s : AdaptiveState} {now : Time}

theorem renew_of_isOver_eq_false (h : a.isOver now s = false) : a.renew now s = s :=
  if_pos (Nat.not_le.1 (of_decide_eq_false h))

theorem kept_renew_of_isOver (h : a.isOver now s = true) :
    (a.renew now s).kept = 0 ∧ (a.renew now s).firstCycle = false := by
  rw [renew,if_neg (Nat.not_lt.2 (of_decide_eq_true h))]
  exact ⟨rfl,rfl⟩

end AdaptiveSampler

end TraceEngine
