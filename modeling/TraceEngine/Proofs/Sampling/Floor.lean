import TraceEngine.Proofs.Sampling.Ceiling

/-! Which calls of a sampler are sure to be answered by yes, whatever is drawn: the first ones of a period, as many as
the target says, if it is the first period or if no more than the target were seen in the one before. -/
namespace TraceEngine.AdaptiveSampler

variable {σ : Type} {a : AdaptiveSampler} {draw : ℕ → σ → ℕ × σ} {c : Course σ} {s : AdaptiveState} {now : Time}

def untilRenewed (calls : List SamplerCall) : List SamplerCall := calls.takeWhile fun e => !e.renewed

/-- In the period that goes on nothing is left to chance until the target is reached. -/
def IsFree (a : AdaptiveSampler) (s : AdaptiveState) : Prop := s.firstCycle = true ∨ s.seenLast ≤ a.target

/-- A source of draws that keeps to the bound it is given. -/
def DrawsBelow (draw : ℕ → σ → ℕ × σ) : Prop := ∀ upper source, 0 < upper → (draw upper source).1 < upper

theorem decides_of_isFree (hfree : a.IsFree s) (hroom : s.kept < a.target) {drawn : ℕ}
    (hdrawn : s.seenLast = 0 ∨ drawn < s.seenLast) : a.decides s drawn = true := by
  have htarget : a.target ≠ 0 := by omega
  rw [decides,if_neg htarget]
  by_cases hfirst : s.firstCycle = true
  · simp [hfirst,hroom]
  · have hlast : s.seenLast ≤ a.target := hfree.resolve_left hfirst
    rw [if_neg hfirst,if_pos hroom,decide_eq_true_eq]
    omega

/-- Until the target is reached a number is drawn only below the number seen in the period before. -/
theorem eq_seenLast_of_bound? {upper : ℕ} (hroom : (a.renew now s).kept < a.target)
    (h : a.bound? now s = some upper) : upper = (a.renew now s).seenLast ∧ 0 < upper := by
  simp only [bound?,hroom,if_true] at h
  split_ifs at h with hnone hlast
  obtain rfl := Option.some.inj h
  exact ⟨rfl,Nat.pos_of_ne_zero hlast⟩

theorem sampleFrom_of_isFree (hdraw : DrawsBelow draw) (source : σ) (hfree : a.IsFree (a.renew now s))
    (hroom : (a.renew now s).kept < a.target) :
    (a.sampleFrom draw now s source).1 = true ∧
      (a.sampleFrom draw now s source).2.1.kept = (a.renew now s).kept + 1 := by
  unfold sampleFrom
  cases hbound : a.bound? now s with
  | none => simp [sampleAt,decides_of_isFree hfree hroom (Nat.eq_zero_or_pos _)]
  | some upper =>
    obtain ⟨hupper,hpos⟩ := eq_seenLast_of_bound? hroom hbound
    have hdrawn : (draw upper source).1 < (a.renew now s).seenLast := hupper ▸ hdraw upper source hpos
    simp [sampleAt,decides_of_isFree hfree hroom (Or.inr hdrawn)]

theorem isFree_call (h : a.IsFree (a.renew now c.state)) : a.IsFree (a.call draw c now).state := by
  obtain ⟨sampled,-,-,hstate,-⟩ := a.exists_call draw c now
  rw [hstate]
  exact h

def following (a : AdaptiveSampler) (draw : ℕ → σ → ℕ × σ) (c : Course σ) : List Time → List SamplerCall
  | [] => []
  | now::times =>
    ⟨now,a.isOver now c.state,(a.sampleFrom draw now c.state c.source).1⟩::following a draw (a.call draw c now) times

theorem calls_foldl (a : AdaptiveSampler) (draw : ℕ → σ → ℕ × σ) (c : Course σ) (times : List Time) :
    (times.foldl (a.call draw) c).calls = c.calls ++ a.following draw c times := by
  induction times generalizing c with
  | nil => simp [following]
  | cons now times ih => rw [List.foldl_cons,ih,following,call,List.append_assoc,List.singleton_append]

theorem drop_following (a : AdaptiveSampler) (draw : ℕ → σ → ℕ × σ) (c : Course σ) (n : ℕ) (times : List Time) :
    (a.following draw c times).drop n = a.following draw ((times.take n).foldl (a.call draw) c) (times.drop n) := by
  induction n generalizing c times with
  | zero => rfl
  | succ n ih =>
    cases times with
    | nil => rfl
    | cons now times => exact ih (a.call draw c now) times

theorem sampled_cons (hdraw : DrawsBelow draw) (hfree : a.IsFree (a.renew now c.state)) (renewed : Bool)
    {later : List SamplerCall}
    (hlater : ∀ e ∈ later.take (a.target - (a.call draw c now).state.kept), e.sampled = true) :
    ∀ e ∈ (⟨now,renewed,(a.sampleFrom draw now c.state c.source).1⟩::later : List SamplerCall).take
      (a.target - (a.renew now c.state).kept), e.sampled = true := by
  rcases Nat.lt_or_ge (a.renew now c.state).kept a.target with hroom | hfull
  · obtain ⟨hyes,hkept⟩ := sampleFrom_of_isFree hdraw c.source hfree hroom
    have hleft : a.target - (a.renew now c.state).kept = a.target - (a.call draw c now).state.kept + 1 := by
      rw [show (a.call draw c now).state.kept = (a.renew now c.state).kept + 1 from hkept]
      omega
    rw [hleft,List.take_succ_cons,List.forall_mem_cons]
    exact ⟨hyes,hlater⟩
  · simp [Nat.sub_eq_zero_of_le hfull]

theorem sampled_following (hdraw : DrawsBelow draw) (hfree : a.IsFree c.state) (times : List Time) :
    ∀ e ∈ (untilRenewed (a.following draw c times)).take (a.target - c.state.kept), e.sampled = true := by
  induction times generalizing c with
  | nil => simp [following,untilRenewed]
  | cons now times ih =>
    cases hover : a.isOver now c.state with
    | true => simp [following,untilRenewed,hover]
    | false =>
      have hgoes := renew_of_isOver_eq_false hover
      have hfirst : a.IsFree (a.renew now c.state) := hgoes.symm ▸ hfree
      have hnext : a.IsFree (a.call draw c now).state := isFree_call hfirst
      have hall := sampled_cons hdraw hfirst (a.isOver now c.state) (ih hnext)
      rw [hgoes] at hall
      simpa [following,untilRenewed,hover] using hall

theorem sampled_of_renewed (hdraw : DrawsBelow draw) (hover : a.isOver now c.state = true)
    (hlast : (a.call draw c now).state.seenLast ≤ a.target) (times : List Time) :
    ∀ e ∈ (⟨now,a.isOver now c.state,(a.sampleFrom draw now c.state c.source).1⟩ ::
      untilRenewed (a.following draw (a.call draw c now) times)).take a.target, e.sampled = true := by
  obtain ⟨sampled,-,-,hstate,-⟩ := a.exists_call draw c now
  have hfree : a.IsFree (a.renew now c.state) := Or.inr (by rwa [hstate] at hlast)
  have hgoes : a.IsFree (a.call draw c now).state := isFree_call hfree
  have hall := sampled_cons hdraw hfree (a.isOver now c.state) (sampled_following hdraw hgoes times)
  rwa [(kept_renew_of_isOver hover).1,Nat.sub_zero] at hall

/-- The first calls of the first period, and of every later one that began when no more than the target had been seen
in the one before, are answered by yes, as many as the target says, whatever is drawn. -/
theorem sampled_take (target : ℕ) (period : Time) (thinning : Thinning) {draw : ℕ → σ → ℕ × σ}
    (hdraw : ∀ upper source, 0 < upper → (draw upper source).1 < upper) (start : Time) (source : σ)
    (times : List Time) :
    let a := { make target period with thinning := thinning }
    let calls := (a.course draw start source times).calls
    (∀ e ∈ (untilRenewed calls).take target, e.sampled = true) ∧
      ∀ n e later, calls.drop n = e::later → e.renewed = true →
        (a.course draw start source (times.take (n + 1))).state.seenLast ≤ target →
        ∀ d ∈ (e::untilRenewed later).take target, d.sampled = true := by
  intro a calls
  have hcalls : calls = a.following draw ⟨{ periodStart := start },source,[]⟩ times :=
    (a.calls_foldl draw _ times).trans (List.nil_append _)
  refine ⟨?_,fun n e later hdrop hrenewed hlast => ?_⟩
  · rw [hcalls]
    have hfree : a.IsFree (Course.mk { periodStart := start } source []).state := Or.inl rfl
    exact sampled_following hdraw hfree times
  · rw [hcalls,drop_following] at hdrop
    cases hrest : times.drop n with
    | nil => simp [hrest,following] at hdrop
    | cons now rest =>
      have htake : times.take (n + 1) = times.take n ++ [now] := by
        rw [List.take_add_one,← List.head?_drop,hrest,List.head?_cons,Option.toList_some]
      rw [htake,course_concat] at hlast
      rw [hrest,following] at hdrop
      obtain ⟨rfl,rfl⟩ := List.cons.inj hdrop
      exact sampled_of_renewed hdraw hrenewed hlast rest

def drawHighest (upper : ℕ) (source : Unit) : ℕ × Unit := (upper - 1,source)

/-- Three calls in the first period, two in the second, of which none is kept, and two in the third. -/
def threePeriods : List Time := [5,5,5,10000005,10000006,20000005,20000006]

theorem sampled_take_threePeriods : (∀ upper source, 0 < upper → (drawHighest upper source).1 < upper) ∧
    let calls := ((make 2 10000000).course drawHighest 5 () threePeriods).calls
    (∀ e ∈ (untilRenewed calls).take 2, e.sampled = true) ∧
      (calls.drop 3).map SamplerCall.sampled = [false,false,true,true] ∧
      calls.drop 5 = [⟨20000005,true,true⟩,⟨20000006,false,true⟩] ∧
      ((make 2 10000000).course drawHighest 5 () (threePeriods.take 6)).state.seenLast = 2 ∧
      ∀ d ∈ (⟨20000005,true,true⟩::untilRenewed [⟨20000006,false,true⟩] : List SamplerCall).take 2,
        d.sampled = true := by
  have hdraw : ∀ upper source, 0 < upper → (drawHighest upper source).1 < upper :=
    fun upper _ hpos => Nat.sub_lt hpos Nat.one_pos
  obtain ⟨hfirst,hlater⟩ := sampled_take 2 10000000 .exponential hdraw 5 () threePeriods
  have hdrop : ((make 2 10000000).course drawHighest 5 () threePeriods).calls.drop 5 =
      [⟨20000005,true,true⟩,⟨20000006,false,true⟩] := by decide +kernel
  have hlast : ((make 2 10000000).course drawHighest 5 () (threePeriods.take 6)).state.seenLast = 2 := by
    decide +kernel
  exact ⟨hdraw,hfirst,by decide +kernel,hdrop,hlast,hlater 5 _ _ hdrop rfl hlast.le⟩

end TraceEngine.AdaptiveSampler
