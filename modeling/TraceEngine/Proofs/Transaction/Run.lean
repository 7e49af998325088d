import TraceEngine.Proofs.Segment.Recording
import TraceEngine.Transaction.Segments
import TraceEngine.Transaction.Tracing

/-! Runs of a transaction: any sequence of operations that its owner may call, in any order. An
operation that is refused changes nothing. -/
namespace TraceEngine

/-- The operations on a transaction, each with all that is passed to it. -/
inductive Operation
  | rename (name : String)
  | startNamed (name : String) (options : SegmentOptions)
  | startKind (kind : SegmentKind) (options : SegmentOptions)
  | finishSegment (id : ℕ) (stop : Time) (frames : List String)
  | setCurrent (id : ℕ)
  | changeSegment (id : ℕ) (change : SegmentChange)
  | setHostHeader (id : ℕ) (host : String)
  | noticeError (id : ℕ) (error : NoticedError)
  | decide (chance : Chance)
  | setForcePersist (keep : Bool)
  | setSyntheticsId (id : String)
  | acceptHeaders (carrier : Carrier) (chance : Chance)
  | acceptContext (context : TraceContext) (chance : Chance)
  | insertHeaders (carrier : Carrier) (now : Time) (chance : Chance)
  | requestHeaders (id : ℕ) (carrier : Carrier) (now : Time) (chance : Chance)
  | finish (stop : Time) (frames : List String) (chance : Chance)

def Operation.time? : Operation → Option Time
  | .startNamed _ o => some o.start
  | .startKind _ o => some o.start
  | .finishSegment _ stop _ => some stop
  | .finish stop _ _ => some stop
  | _ => none

def Operation.startUnder (parent : ℕ) (start : Time) : Operation :=
  .startNamed "call" { guid := ⟨0⟩, start, parent := some parent }

def Operation.stopAt (id : ℕ) (stop : Time) : Operation := .finishSegment id stop []

/-- An operation that has nothing to do with segments. -/
def Operation.leavesTree : Operation → Bool
  | .rename _ | .decide _ | .setForcePersist _ | .setSyntheticsId _ | .acceptHeaders _ _
  | .acceptContext _ _ | .insertHeaders _ _ _ | .requestHeaders _ _ _ _ => true
  | _ => false

/-- An operation that ends nothing and does not change when a segment gets its result. -/
def Operation.opens : Operation → Bool
  | .finishSegment _ _ _ | .finish _ _ _ => false
  | .changeSegment _ change => change.recordOnFinish.isNone
  | _ => true

namespace Transaction

variable {t t' : Transaction} {op : Operation}

def after (t : Transaction) (r : Except SegmentFault Transaction) : Transaction :=
  match r with
  | .ok t' => t'
  | .error _ => t

def apply (t : Transaction) : Operation → Transaction
  | .rename name => { t with name }
  | .startNamed name o => t.after ((t.startNamed name o).map (·.2))
  | .startKind kind o => t.after ((t.startKind kind o).map (·.2))
  | .finishSegment id stop frames => t.after (t.finishSegment id stop frames)
  | .setCurrent id => t.after (t.setCurrent id)
  | .changeSegment id change => t.after (t.changeSegment id change)
  | .setHostHeader id host => t.after (t.setHostHeader id host)
  | .noticeError id error => t.after (t.noticeError id error)
  | .decide chance => (t.decide chance).2
  | .setForcePersist keep => { t with forcePersist := keep }
  | .setSyntheticsId id => { t with syntheticsId := some id }
  | .acceptHeaders c chance => (t.acceptHeaders c chance).2
  | .acceptContext c chance => (t.acceptContext c chance).2
  | .insertHeaders c now chance => t.after ((t.insertHeaders c now chance).map (·.2.2))
  | .requestHeaders id c now chance => t.after ((t.requestHeaders id c now chance).map (·.2.2))
  | .finish stop frames chance => (t.finish stop frames chance).2

def run (t : Transaction) (ops : List Operation) : Transaction := ops.foldl apply t

/-- A transaction right after its start. -/
def Fresh (t : Transaction) : Prop :=
  ∃ name guid rootGuid traceId start settings decider,
    t = make name guid rootGuid traceId start settings decider

/-- The times passed never go back, and none is before the start of the transaction. -/
def OnTime (t : Transaction) (ops : List Operation) : Prop :=
  (t.start::ops.filterMap Operation.time?).Pairwise (· ≤ ·)

/-- An orderly operation starts no segment under one that has ended, and ends no segment that has a
child that runs. -/
def orderlyStep (t : Transaction) : Operation → Bool
  | .startNamed name o => !(t.startNamed name o).isOk ||
      (t.tree.get? (o.parent.getD t.tree.current)).all (!·.isFinished)
  | .startKind kind o => !(t.startKind kind o).isOk ||
      (t.tree.get? (o.parent.getD t.tree.current)).all (!·.isFinished)
  | .finishSegment id _ _ => (t.tree.segments.filter fun s => s.parent = some id).all (·.isFinished)
  | _ => true

/-- Each operation of a run is as it should be in the state in which it is called. -/
def always (ok : Transaction → Operation → Bool) (t : Transaction) : List Operation → Bool
  | [] => true
  | op::ops => ok t op && always ok (t.apply op) ops

def orderly (t : Transaction) (ops : List Operation) : Bool := always orderlyStep t ops

/-- An operation that ends a segment while it records on finish. -/
def recordsStep (p : ℕ) (t : Transaction) (op : Operation) : Bool :=
  (t.tree.get? p).any (fun s => !s.isFinished && s.recordOnFinish) &&
    ((t.apply op).tree.get? p).any (·.isFinished)

/-- A segment that does not record on finish in a run. -/
def neverRecords (p : ℕ) (t : Transaction) (ops : List Operation) : Bool :=
  always (fun t op => !recordsStep p t op) t ops

/-- The four ways in which an operation may change the tree. -/
inductive Effect (t : Transaction) (op : Operation) (t' : Transaction) : Prop
  | touch (h : t.tree.Touch t'.tree) (hstop : t'.stop = t.stop) (hsettings : t'.settings = t.settings)
      (hrecord : op.opens = true → t.tree.SameRecording t'.tree)
  | start {now : Time} {p : ℕ} {q s : Segment} {b : Bool} (hnow : op.time? = some now)
      (hopen : t.isFinished = false) (hq : t.tree.get? p = some q)
      (hs : ({ guid := s.guid, name := s.name, start := now } : Segment).Alike s)
      (ho : t.orderlyStep op = true → q.isFinished = false) (htree : t'.tree = t.tree.start s p b)
      (hstop : t'.stop = t.stop) (hsettings : t'.settings = t.settings)
      (hrecord : s.recordOnFinish = Decidable.decide (t.settings.segmentLimit ≤ t.tree.size))
  | finishSegment {i : ℕ} {now : Time} {b : Backtrace} (hnow : op.time? = some now)
      (ho : t.orderlyStep op = true → ∀ c ∈ t.tree.children i, c.isFinished = true)
      (htree : t'.tree = t.tree.finish b i now) (hstop : t'.stop = t.stop) (hends : op.opens = false)
  | finish {now : Time} {frames : List String} {chance : Chance} (hop : op = .finish now frames chance)
      (hopen : t.isFinished = false) (htree : t'.tree = t.tree.close (t.backtrace frames) now)
      (hstop : t'.isFinished = true)

/-- What a transaction keeps when something else is done with it than with its segments. -/
structure Unmoved (t t' : Transaction) : Prop where
  tree : t'.tree = t.tree
  stop : t'.stop = t.stop
  settings : t'.settings = t.settings

theorem Unmoved.refl (t : Transaction) : t.Unmoved t := ⟨rfl,rfl,rfl⟩

theorem Effect.of_unmoved (h : t.Unmoved t') : Effect t op t' :=
  .touch (h.tree ▸ .same) h.stop h.settings fun _ => h.tree ▸ .refl t.tree

theorem unmoved_limitReached (t : Transaction) : t.Unmoved t.limitReached := by
  unfold limitReached
  split <;> exact ⟨rfl,rfl,rfl⟩

theorem unmoved_decide (t : Transaction) (chance : Chance) : t.Unmoved (t.decide chance).2 := by
  unfold decide
  split <;> exact ⟨rfl,rfl,rfl⟩

theorem unmoved_applyAccepted (t : Transaction) (chance : Chance)
    (done : Logged (Option AcceptedTrace × Exchange)) : t.Unmoved (t.applyAccepted chance done).2 := by
  unfold applyAccepted
  simp only
  split <;> exact ⟨rfl,rfl,rfl⟩

theorem unmoved_createOutbound (t : Transaction) (spanId : SpanId) (c : Carrier) (now : Time)
    (chance : Chance) : t.Unmoved (t.createOutbound spanId c now chance).2.2 := by
  unfold createOutbound
  split
  · exact ⟨(t.unmoved_decide chance).tree,(t.unmoved_decide chance).stop,
      (t.unmoved_decide chance).settings⟩
  · exact Unmoved.refl t

theorem segment_eq (t : Transaction) (id : ℕ) :
    t.segment id = match t.tree.get? id with
      | some s => .ok s
      | none => .error (.unknownSegment id) := rfl

theorem unmoved_apply (h : op.leavesTree = true) : t.Unmoved (t.apply op) := by
  cases op with
  | rename | setForcePersist | setSyntheticsId => exact ⟨rfl,rfl,rfl⟩
  | decide chance => exact t.unmoved_decide chance
  | acceptHeaders c chance =>
    simp only [apply,acceptHeaders]
    split
    · exact t.unmoved_applyAccepted chance _
    · exact Unmoved.refl t
  | acceptContext c chance =>
    simp only [apply,acceptContext]
    split
    · exact t.unmoved_applyAccepted chance _
    · exact Unmoved.refl t
  | insertHeaders c now chance =>
    simp only [apply,insertHeaders,segment_eq]
    cases hs : t.tree.get? t.tree.current with
    | none => exact Unmoved.refl t
    | some s => exact t.unmoved_createOutbound s.guid c now chance
  | requestHeaders id c now chance =>
    simp only [apply,requestHeaders,segment_eq]
    cases hs : t.tree.get? id with
    | none => exact Unmoved.refl t
    | some s =>
      simp only [bind,Except.bind,pure,Except.pure]
      split
      · exact t.unmoved_createOutbound s.guid c now chance
      · exact Unmoved.refl t
  | startNamed | startKind | finishSegment | setCurrent | changeSegment | setHostHeader
  | noticeError | finish => cases h

theorem startSegment_of_get? {name : String} {kind : SegmentKind} {o : SegmentOptions} {q : Segment}
    (hopen : t.isFinished = false) (hq : t.tree.get? (o.parent.getD t.tree.current) = some q) :
    ∃ (s : Segment) (u : Transaction),
      ({ guid := s.guid, name := s.name, start := o.start } : Segment).Alike s ∧
      s.recordOnFinish = Decidable.decide (t.settings.segmentLimit ≤ t.tree.size) ∧
      s.inSample = Decidable.decide (t.tree.size < t.settings.segmentLimit) ∧ t.Unmoved u ∧
      t.startSegment name kind o =
        .ok (t.tree.size,
          { u with tree := t.tree.start s (o.parent.getD t.tree.current) o.parent.isNone }) := by
  simp only [startSegment,hopen,hq,Bool.false_eq_true,if_false]
  by_cases hbeyond : t.settings.segmentLimit ≤ t.tree.size
  · simp only [hbeyond,if_true,t.unmoved_limitReached.tree]
    exact ⟨_,_,⟨rfl,rfl,rfl,rfl,rfl,rfl,rfl,rfl,rfl,rfl⟩,by simp [Segment.excludeFromSample],
      by simp [Segment.excludeFromSample,hbeyond],t.unmoved_limitReached,rfl⟩
  · simp only [hbeyond,if_false]
    exact ⟨_,_,⟨rfl,rfl,rfl,rfl,rfl,rfl,rfl,rfl,rfl,rfl⟩,by simp,by simpa using hbeyond,Unmoved.refl t,rfl⟩

theorem startSegment_ok {name : String} {kind : SegmentKind} {o : SegmentOptions} {r : ℕ × Transaction}
    (h : t.startSegment name kind o = .ok r) :
    t.isFinished = false ∧ ∃ q s, t.tree.get? (o.parent.getD t.tree.current) = some q ∧
      ({ guid := s.guid, name := s.name, start := o.start } : Segment).Alike s ∧
      s.recordOnFinish = Decidable.decide (t.settings.segmentLimit ≤ t.tree.size) ∧
      s.inSample = Decidable.decide (t.tree.size < t.settings.segmentLimit) ∧
      r.2.tree = t.tree.start s (o.parent.getD t.tree.current) o.parent.isNone ∧ r.2.stop = t.stop ∧
      r.2.settings = t.settings := by
  cases hopen : t.isFinished with
  | true => simp [startSegment,hopen] at h
  | false =>
    cases hq : t.tree.get? (o.parent.getD t.tree.current) with
    | none => simp [startSegment,hopen,hq] at h
    | some q =>
      obtain ⟨s,u,hs,hrecord,hsample,hu,he⟩ := @startSegment_of_get? t name kind o q hopen hq
      obtain rfl := Except.ok.inj (he.symm.trans h)
      exact ⟨rfl,q,s,rfl,hs,hrecord,hsample,rfl,hu.stop,hu.settings⟩

theorem Effect.of_start {o : SegmentOptions} {r : Except SegmentFault (ℕ × Transaction)}
    (hr : ∀ v, r = .ok v → ∃ name kind, t.startSegment name kind o = .ok v)
    (hnow : op.time? = some o.start)
    (ho : t.orderlyStep op =
      (!r.isOk || (t.tree.get? (o.parent.getD t.tree.current)).all (!·.isFinished))) :
    Effect t op (t.after (r.map (·.2))) := by
  cases hv : r with
  | error e => exact .of_unmoved (.refl t)
  | ok v =>
    obtain ⟨name,kind,hok⟩ := hr v hv
    obtain ⟨hopen,q,s,hq,hs,hrecord,-,htree,hstop,hsettings⟩ := startSegment_ok hok
    refine .start hnow hopen hq hs (fun h => ?_) htree hstop hsettings hrecord
    rw [ho,hv,hq] at h
    simpa [Except.isOk,Except.toBool] using h

theorem Effect.of_modify {id : ℕ} {f : Segment → Segment} (hf : ∀ s : Segment, s.Alike (f s))
    (hrecord : op.opens = true → ∀ s : Segment, (f s).recordOnFinish = s.recordOnFinish) :
    Effect t op { t with tree := t.tree.modify id f } :=
  .touch (.retouch id hf) rfl rfl fun hop => SegmentTree.modify_sameRecording fun s _ => hrecord hop s

theorem onSegment {P : Transaction → Prop} (h : P t) (id : ℕ)
    {f : Segment → Except SegmentFault Transaction}
    (hf : ∀ s, t.tree.get? id = some s → P (t.after (f s))) : P (t.after (t.segment id >>= f)) := by
  rw [segment_eq]
  cases hs : t.tree.get? id with
  | none => exact h
  | some s => exact hf s hs

theorem alike_setHostHeader (s : Segment) (host : String) : s.Alike (s.setHostHeader host) := by
  unfold Segment.setHostHeader
  split <;> exact ⟨rfl,rfl,rfl,rfl,rfl,rfl,rfl,rfl,rfl,rfl⟩

theorem recordOnFinish_setHostHeader (s : Segment) (host : String) :
    (s.setHostHeader host).recordOnFinish = s.recordOnFinish := by
  unfold Segment.setHostHeader
  split <;> rfl

theorem change_eq (c : SegmentChange) (s : Segment) : ∃ ps, c.apply s =
    { s with recordMetrics := c.recordMetrics.getD s.recordMetrics
             recordScoped := c.recordScoped.getD s.recordScoped
             recordOnFinish := c.recordOnFinish.getD s.recordOnFinish
             parameters := ps } := by
  obtain ⟨ps,h⟩ := Segment.foldl_addParameter { s with
    recordMetrics := c.recordMetrics.getD s.recordMetrics
    recordScoped := c.recordScoped.getD s.recordScoped
    recordOnFinish := c.recordOnFinish.getD s.recordOnFinish } c.parameters
  exact ⟨ps,h⟩

theorem alike_change (c : SegmentChange) (s : Segment) : s.Alike (c.apply s) := by
  obtain ⟨ps,h⟩ := change_eq c s
  rw [h]
  exact ⟨rfl,rfl,rfl,rfl,rfl,rfl,rfl,rfl,rfl,rfl⟩

theorem recordOnFinish_change (c : SegmentChange) (s : Segment) :
    (c.apply s).recordOnFinish = c.recordOnFinish.getD s.recordOnFinish := by
  obtain ⟨ps,h⟩ := change_eq c s
  rw [h]

theorem isFinished_finish (ht : t.tree.Rooted) (stop : Time) (frames : List String) (chance : Chance) :
    (t.finish stop frames chance).2.isFinished = true := by
  unfold Transaction.finish
  split
  · assumption
  · simp only
    rw [isFinished,(unmoved_decide _ chance).stop]
    obtain ⟨hchanges,hall⟩ := SegmentTree.changes_finishAll (t.backtrace frames) stop False ht
    obtain ⟨s,hs⟩ := SegmentTree.exists_get? (SegmentTree.Changes.rooted ht hchanges).nonempty
    obtain ⟨u,hu,htimes⟩ := (SegmentTree.close_sameTimes t.tree (t.backtrace frames) stop).get? hs
    have hf := hall hs
    rw [← Segment.isFinished_of_times htimes,Segment.isFinished] at hf
    simpa [hu] using hf

theorem finish_of_ended (hf : t.isFinished = true) (stop : Time) (frames : List String)
    (chance : Chance) : t.finish stop frames chance = (false,t) := if_pos hf

theorem finish_of_open (hopen : t.isFinished = false) (stop : Time) (frames : List String)
    (chance : Chance) :
    (t.finish stop frames chance).2.tree = t.tree.close (t.backtrace frames) stop ∧
      (t.finish stop frames chance).2.stop =
        ((t.tree.close (t.backtrace frames) stop).get? 0).bind (·.stop) ∧
      (t.finish stop frames chance).2.settings = t.settings := by
  unfold Transaction.finish
  rw [if_neg (by simp [hopen])]
  exact ⟨(unmoved_decide _ chance).tree,(unmoved_decide _ chance).stop,(unmoved_decide _ chance).settings⟩

theorem Effect.of_finish (ht : t.tree.Rooted) (stop : Time) (frames : List String) (chance : Chance) :
    Effect t (.finish stop frames chance) (t.finish stop frames chance).2 := by
  cases hopen : t.isFinished with
  | true =>
    rw [finish_of_ended hopen]
    exact .of_unmoved (.refl t)
  | false =>
    exact .finish rfl hopen (finish_of_open hopen stop frames chance).1
      (isFinished_finish ht stop frames chance)

theorem effect_apply (ht : t.tree.Rooted) (op : Operation) : Effect t op (t.apply op) := by
  cases op with
  | rename | decide | setForcePersist | setSyntheticsId | acceptHeaders | acceptContext
  | insertHeaders | requestHeaders => exact .of_unmoved (unmoved_apply rfl)
  | startNamed name o =>
    refine .of_start (fun v hv => ?_) rfl rfl
    unfold startNamed at hv
    cases hn : required "name" name with
    | error e => simp [hn,bind,Except.bind] at hv
    | ok n => exact ⟨n,.generic,by simpa [hn,bind,Except.bind] using hv⟩
  | startKind kind o => exact .of_start (fun v hv => ⟨_,kind,hv⟩) rfl rfl
  | finishSegment id stop frames =>
    refine onSegment (.of_unmoved (.refl t)) id fun s hs => .finishSegment rfl (fun h c hc => ?_) rfl rfl rfl
    obtain ⟨j,hj,hp⟩ := SegmentTree.mem_children.mp hc
    obtain ⟨hlt,he⟩ := Array.getElem?_eq_some_iff.mp hj
    have hall := Array.all_eq_true'.mp h c
      (Array.mem_filter.mpr ⟨Array.mem_of_getElem he,by simpa using hp⟩)
    simpa using hall
  | setCurrent id =>
    exact onSegment (.of_unmoved (.refl t)) id fun s _ => .touch (.move id) rfl rfl fun _ => .refl t.tree
  | changeSegment id change =>
    refine onSegment (.of_unmoved (.refl t)) id fun s _ => .of_modify (alike_change change) fun hop s => ?_
    rw [recordOnFinish_change,Option.isNone_iff_eq_none.mp hop,Option.getD_none]
  | setHostHeader id host =>
    exact onSegment (.of_unmoved (.refl t)) id fun s _ => .of_modify (alike_setHostHeader · host)
      fun _ s => recordOnFinish_setHostHeader s host
  | noticeError id error =>
    refine onSegment (.of_unmoved (.refl t)) id fun s _ => ?_
    cases hh : t.settings.highSecurity with
    | true => exact .of_unmoved ⟨rfl,rfl,rfl⟩
    | false =>
      have hf : ∀ s : Segment, s.Alike { s with error := some error } :=
        fun s => ⟨rfl,rfl,rfl,rfl,rfl,rfl,rfl,rfl,rfl,rfl⟩
      have hrecord : t.tree.SameRecording (t.tree.modify id fun s => { s with error := some error }) :=
        SegmentTree.modify_sameRecording fun _ _ => rfl
      cases he : s.error with
      | none => exact .touch (.retouch id hf) rfl rfl fun _ => hrecord
      | some previous => exact .touch (.retouch id hf) rfl rfl fun _ => hrecord
  | finish stop frames chance => exact .of_finish ht stop frames chance

theorem Effect.changes (now : Time) (orderly : Prop) (ht : t.tree.Rooted) (h : Effect t op t')
    (hnow : ∀ x, op.time? = some x → x = now) (ho : orderly → t.orderlyStep op = true) :
    SegmentTree.Changes now orderly t.tree t'.tree := by
  cases h with
  | touch h _ => exact .single (.quiet h.quiet)
  | start hx _ hq hs hstep htree _ =>
    obtain rfl := hnow _ hx
    rw [htree]
    exact .single (.start _ hq hs fun h => hstep (ho h))
  | finishSegment hx hstep htree _ =>
    obtain rfl := hnow _ hx
    rw [htree]
    exact SegmentTree.changes_finish ht _ fun h _ _ _ => hstep (ho h)
  | finish hop _ htree _ =>
    obtain rfl := hnow _ (congrArg Operation.time? hop)
    rw [htree]
    exact SegmentTree.changes_close _ _ _ ht

theorem changes_apply (ht : t.tree.Rooted) (op : Operation) (now : Time) :
    SegmentTree.Changes (op.time?.getD now) False t.tree (t.apply op).tree :=
  (effect_apply ht op).changes _ False ht (fun x hx => by rw [hx,Option.getD_some]) False.elim

theorem Fresh.get? (h : t.Fresh) {i : ℕ} {s : Segment} (hs : t.tree.get? i = some s) :
    i = 0 ∧ ({ guid := s.guid, name := s.name, start := t.start } : Segment).Alike s := by
  obtain ⟨name,guid,rootGuid,traceId,start,settings,decider,rfl⟩ := h
  have hi : i = 0 := Nat.lt_one_iff.mp (SegmentTree.lt_size_of_get? hs)
  subst hi
  cases Option.some.inj hs
  exact ⟨rfl,Segment.Alike.refl _⟩

theorem Fresh.parent_ne (h : t.Fresh) {i p : ℕ} {s : Segment} (hs : t.tree.get? i = some s) :
    s.parent ≠ some p := by
  rw [(h.get? hs).2.parent]
  simp

theorem Fresh.finalized_eq_false (h : t.Fresh) {i : ℕ} {s : Segment} (hs : t.tree.get? i = some s) :
    s.finalized = false :=
  (h.get? hs).2.finalized

theorem Fresh.segment_running (h : t.Fresh) {i : ℕ} {s : Segment} (hs : t.tree.get? i = some s) :
    s.isFinished = false := by
  rw [Segment.isFinished,(h.get? hs).2.stop]
  rfl

theorem Fresh.isFinished_eq_false (h : t.Fresh) : t.isFinished = false := by
  obtain ⟨name,guid,rootGuid,traceId,start,settings,decider,rfl⟩ := h
  rfl

def plain : Transaction := make "plain" ⟨1⟩ ⟨2⟩ ⟨3⟩ 0 {} ⟨.same .free⟩

theorem plain_fresh : plain.Fresh := ⟨_,_,_,_,_,_,_,rfl⟩

theorem Fresh.rooted (h : t.Fresh) : t.tree.Rooted where
  nonempty := by
    obtain ⟨name,guid,rootGuid,traceId,start,settings,decider,rfl⟩ := h
    exact Nat.one_pos
  parent_lt hs hp := absurd hp (h.parent_ne hs)
  parent_none hs := by
    obtain ⟨hi,halike⟩ := h.get? hs
    exact ⟨fun _ => hi,fun _ => halike.parent⟩

/-- What a clock and a discipline let every operation preserve holds at the end of a run, at some
time. -/
theorem run_induction {ok : Transaction → Operation → Bool} {I : Time → Transaction → Prop}
    (hstep : ∀ {now t op}, I now t → (∀ x, op.time? = some x → now ≤ x) → ok t op = true →
      I (op.time?.getD now) (t.apply op))
    {now : Time} (h : I now t) {ops : List Operation}
    (htimes : (now::ops.filterMap Operation.time?).Pairwise (· ≤ ·)) (hok : always ok t ops = true) :
    ∃ now', I now' (t.run ops) := by
  induction ops generalizing t now with
  | nil => exact ⟨now,h⟩
  | cons op ops ih =>
    simp only [always,Bool.and_eq_true] at hok
    cases hx : op.time? with
    | none =>
      rw [List.filterMap_cons_none hx] at htimes
      have hnext := hstep h (by simp [hx]) hok.1
      rw [hx] at hnext
      exact ih hnext htimes hok.2
    | some x =>
      rw [List.filterMap_cons_some hx] at htimes
      obtain ⟨hle,hrest⟩ := List.pairwise_cons.mp htimes
      have hnext := hstep h (fun y hy => by
        cases Option.some.inj (hx.symm.trans hy)
        exact hle _ List.mem_cons_self) hok.1
      rw [hx] at hnext
      exact ih hnext hrest hok.2

theorem run_append (t : Transaction) (ops ops' : List Operation) :
    t.run (ops ++ ops') = (t.run ops).run ops' :=
  List.foldl_append

theorem isFinished_run_finish {ops : List Operation} (ht : (t.run ops).tree.Rooted) (stop : Time)
    (frames : List String) (chance : Chance) :
    (t.run (ops ++ [.finish stop frames chance])).isFinished = true := by
  rw [run_append]
  exact isFinished_finish ht stop frames chance

end Transaction

end TraceEngine
