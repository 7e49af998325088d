import TraceEngine.Proofs.Segment.Twin
import TraceEngine.Proofs.Transaction.ExclusiveTime
import TraceEngine.Proofs.Transaction.Finalization

/-! What the limit of segments has to do with times: two runs of the same operations under different
limits end with the same times and the same accounts. Only a segment that records on finish in one of
the runs, and below which something ends later, may have another exclusive time. -/
namespace TraceEngine.Transaction

open SegmentTree (get?_inj lt_size_of_get?)

variable {same : ℕ → Prop} {t t' u u' : Transaction} {op : Operation} {p : ℕ}

/-- Two transactions that went through the same and differ in the limit of segments. -/
structure Twins (same : ℕ → Prop) (t t' : Transaction) : Prop where
  stop : t'.stop = t.stop
  settings : t'.settings = { t.settings with segmentLimit := t'.settings.segmentLimit }
  side : ∀ i, same i → (t'.settings.segmentLimit ≤ i ↔ t.settings.segmentLimit ≤ i)
  tree : SegmentTree.Twin same t.tree t'.tree

namespace Twins

theorem isFinished (h : Twins same t t') : t'.isFinished = t.isFinished := by
  rw [Transaction.isFinished,Transaction.isFinished,h.stop]

theorem of_tree (h : Twins same t t') (hstop : u'.stop = u.stop) (hu : u.settings = t.settings)
    (hu' : u'.settings = t'.settings) (htree : SegmentTree.Twin same u.tree u'.tree) :
    Twins same u u' where
  stop := hstop
  settings := by
    rw [hu,hu']
    exact h.settings
  side i hi := by
    rw [hu,hu']
    exact h.side i hi
  tree := htree

theorem unmoved (h : Twins same t t') (hu : t.Unmoved u) (hu' : t'.Unmoved u') : Twins same u u' := by
  refine h.of_tree ?_ hu.settings hu'.settings ?_
  · rw [hu.stop,hu'.stop,h.stop]
  · rw [hu.tree,hu'.tree]
    exact h.tree

theorem modify (h : Twins same t t') {f : Segment → Segment} (hf : ∀ s : Segment, s.Alike (f s))
    (hrecord : ∀ s s' : Segment, s'.recordOnFinish = s.recordOnFinish →
      (f s').recordOnFinish = (f s).recordOnFinish) (i : ℕ) :
    SegmentTree.Twin same (t.tree.modify i f) (t'.tree.modify i f) :=
  h.tree.modify fun s s' htwin =>
    htwin.alike (hf s) (hf s') fun hi => hrecord s s' (htwin.recordOnFinish hi)

theorem startSegment (h : Twins same t t') (name : String) (kind : SegmentKind) (o : SegmentOptions) :
    Twins same (t.after ((t.startSegment name kind o).map (·.2)))
      (t'.after ((t'.startSegment name kind o).map (·.2))) := by
  cases hopen : t.isFinished with
  | true =>
    simp only [Transaction.startSegment,h.isFinished,hopen,if_true]
    exact h
  | false =>
    cases hq : t.tree.get? (o.parent.getD t.tree.current) with
    | none =>
      simp only [Transaction.startSegment,h.isFinished,hopen,h.tree.current,hq,h.tree.get?_eq_none hq]
      exact h
    | some q =>
      obtain ⟨q',hq',-⟩ := h.tree.get? hq
      rw [← h.tree.current] at hq'
      obtain ⟨s,u,hs,hrec,-,hu,he⟩ := @startSegment_of_get? t name kind o q hopen hq
      obtain ⟨s',u',hs',hrec',-,hu',he'⟩ :=
        @startSegment_of_get? t' name kind o q' (h.isFinished.trans hopen) hq'
      have hnew : Segment.Twin (same t.tree.size) { guid := s.guid, name := s.name, start := o.start }
          { guid := s'.guid, name := s'.name, start := o.start } :=
        ⟨⟨rfl,rfl,rfl,rfl,rfl⟩,rfl,fun _ => rfl⟩
      have htwin : Segment.Twin (same t.tree.size) s s' := hnew.alike hs hs' fun hi => by
        rw [hrec,hrec',h.tree.size]
        exact decide_eq_decide.mpr (h.side t.tree.size hi)
      rw [he,he',h.tree.current]
      refine h.of_tree ?_ hu.settings hu'.settings (h.tree.start hq htwin o.parent.isNone)
      exact hu'.stop.trans (h.stop.trans hu.stop.symm)

theorem onSegment (h : Twins same t t') (id : ℕ) {f f' : Segment → Except SegmentFault Transaction}
    (hf : ∀ s s', Twins same (t.after (f s)) (t'.after (f' s'))) :
    Twins same (t.after (t.segment id >>= f)) (t'.after (t'.segment id >>= f')) := by
  rw [segment_eq,segment_eq]
  cases hs : t.tree.get? id with
  | none =>
    rw [h.tree.get?_eq_none hs]
    exact h
  | some s =>
    obtain ⟨s',hs',-⟩ := h.tree.get? hs
    rw [hs']
    exact hf s s'

theorem apply (h : Twins same t t') (op : Operation) : Twins same (t.apply op) (t'.apply op) := by
  cases op with
  | rename | decide | setForcePersist | setSyntheticsId | acceptHeaders | acceptContext
  | insertHeaders | requestHeaders => exact h.unmoved (unmoved_apply rfl) (unmoved_apply rfl)
  | startNamed name o =>
    simp only [Transaction.apply,startNamed]
    cases required "name" name with
    | error e => exact h
    | ok n => exact h.startSegment n .generic o
  | startKind kind o => exact h.startSegment _ kind o
  | finishSegment id stop frames =>
    exact h.onSegment id fun s s' => h.of_tree h.stop rfl rfl (h.tree.finish _ _ id stop)
  | setCurrent id =>
    exact h.onSegment id fun s s' =>
      h.of_tree h.stop rfl rfl ⟨rfl,h.tree.isAsync,h.tree.segments⟩
  | changeSegment id change =>
    exact h.onSegment id fun s s' => h.of_tree h.stop rfl rfl (h.modify (alike_change change)
      (fun s s' hr => by rw [recordOnFinish_change,recordOnFinish_change,hr]) id)
  | setHostHeader id host =>
    exact h.onSegment id fun s s' => h.of_tree h.stop rfl rfl (h.modify (alike_setHostHeader · host)
      (fun s s' hr => by rw [recordOnFinish_setHostHeader,recordOnFinish_setHostHeader,hr]) id)
  | noticeError id error =>
    refine h.onSegment id fun s s' => ?_
    have hsecurity : t'.settings.highSecurity = t.settings.highSecurity := by rw [h.settings]
    cases hhigh : t.settings.highSecurity with
    | true =>
      simp only [hsecurity,hhigh,if_true]
      exact h.unmoved ⟨rfl,rfl,rfl⟩ ⟨rfl,rfl,rfl⟩
    | false =>
      simp only [hsecurity,hhigh,Bool.false_eq_true,if_false]
      have htree := h.modify (f := fun s => { s with error := some error })
        (fun s => ⟨rfl,rfl,rfl,rfl,rfl,rfl,rfl,rfl,rfl,rfl⟩) (fun s s' hr => hr) id
      cases s.error <;> cases s'.error <;> exact h.of_tree h.stop rfl rfl htree
  | finish stop frames chance =>
    cases hopen : t.isFinished with
    | true =>
      simp only [Transaction.apply,finish_of_ended hopen,finish_of_ended (h.isFinished.trans hopen)]
      exact h
    | false =>
      obtain ⟨htree,hstop,hsettings⟩ := finish_of_open hopen stop frames chance
      obtain ⟨htree',hstop',hsettings'⟩ := finish_of_open (h.isFinished.trans hopen) stop frames chance
      have hclose := h.tree.close (t.backtrace frames) (t'.backtrace frames) stop
      refine h.of_tree ?_ hsettings hsettings' ?_
      · simp only [Transaction.apply]
        rw [hstop,hstop',hclose.stop]
      · simp only [Transaction.apply]
        rw [htree,htree']
        exact hclose

end Twins

/-- An operation that ends a segment below `p` after `p` has ended. -/
def lateStep (p : ℕ) (t : Transaction) (op : Operation) : Bool :=
  (t.tree.get? p).any (·.isFinished) && (List.range t.tree.size).any fun i =>
    Decidable.decide (p ∈ t.tree.ancestors i) && (t.tree.get? i).any (!·.isFinished) &&
      ((t.apply op).tree.get? i).any (·.isFinished)

/-- A segment below which nothing ends in a run after it has ended. -/
def neverLate (p : ℕ) (t : Transaction) (ops : List Operation) : Bool :=
  always (fun t op => !lateStep p t op) t ops

theorem lateStep_eq_true {i : ℕ} {q s v : Segment} (hq : t.tree.get? p = some q)
    (hqf : q.isFinished = true) (hs : t.tree.get? i = some s) (hn : s.isFinished = false)
    (hpi : p ∈ t.tree.ancestors i) (hv : (t.apply op).tree.get? i = some v)
    (hvf : v.isFinished = true) : lateStep p t op = true := by
  simp only [lateStep,hq,Option.any_some,hqf,Bool.true_and,List.any_eq_true,List.mem_range]
  exact ⟨i,SegmentTree.lt_size_of_get? hs,by simp [hpi,hs,hn,hv,hvf]⟩

/-- A result stands as long as nothing ends late below its segment. -/
theorem standing_apply (h : Reckoned t) (hs : t.tree.Standing p) (hlate : lateStep p t op = false) :
    (t.apply op).tree.Standing p := by
  cases effect_apply h.rooted op with
  | touch ht _ => exact hs.touch ht
  | start _ _ hq halike _ htree _ =>
    rw [htree]
    exact hs.start _ hq halike.finalized
  | @finishSegment i now b _ _ htree _ =>
    rw [htree]
    refine hs.finish h.rooted h.results b now fun {s q} hi hn hq hqf => Or.inl fun hpi => ?_
    obtain ⟨v,hv,hvf⟩ := SegmentTree.isFinished_finish b now h.rooted hi
    simp [lateStep_eq_true hq hqf hi hn hpi (htree ▸ hv) hvf] at hlate
  | finish _ _ htree hended =>
    rw [htree]
    refine hs.close h.rooted h.results (fun {q d s} hq hqf hd hpd => ?_) _ _
    by_contra hn
    obtain ⟨v,hv,-⟩ := SegmentTree.Changes.later h.rooted (h.changes op 0) hd
    have hvf := (h.apply op).isFinished_of_ended hended hv
    simp [lateStep_eq_true hq hqf hd (by simpa using hn) hpd hv hvf] at hlate

theorem Reckoned.standing_run (h : Reckoned t) (hs : t.tree.Standing p) {ops : List Operation}
    (hlate : t.neverLate p ops = true) : (t.run ops).tree.Standing p := by
  induction ops generalizing t with
  | nil => exact hs
  | cons op ops ih =>
    simp only [neverLate,always,Bool.and_eq_true,Bool.not_eq_true'] at hlate
    exact ih (h.apply op) (standing_apply h hs hlate.1) hlate.2

theorem standing_apply_of_pending (h : Reckoned t)
    (hp : ∀ s, t.tree.get? p = some s → s.finalized = false) : (t.apply op).tree.Standing p := by
  have hs : t.tree.Standing p := .of_pending hp
  cases effect_apply h.rooted op with
  | touch ht _ => exact hs.touch ht
  | start _ _ hq halike _ htree _ =>
    rw [htree]
    exact hs.start _ hq halike.finalized
  | finishSegment _ _ htree _ =>
    rw [htree]
    exact .finish_of_pending h.rooted h.results hp _ _ _
  | finish _ _ htree _ =>
    rw [htree]
    exact .close_of_pending h.rooted h.results hp _ _

theorem exists_of_recordsStep (h : recordsStep p t op = true) :
    ∃ s u, t.tree.get? p = some s ∧ s.isFinished = false ∧ s.recordOnFinish = true ∧
      (t.apply op).tree.get? p = some u ∧ u.isFinished = true := by
  simp only [recordsStep,Bool.and_eq_true,Option.any_eq_true,Bool.not_eq_true'] at h
  obtain ⟨⟨s,hs,hn,hr⟩,u,hu,hf⟩ := h
  exact ⟨s,u,hs,hn,hr,hu,hf⟩

theorem finalized_of_recordsStep (h : Reckoned t) (hrec : recordsStep p t op = true) {u : Segment}
    (hu : (t.apply op).tree.get? p = some u) : u.finalized = true := by
  obtain ⟨s,v,hs,hn,hr,hv,hf⟩ := exists_of_recordsStep hrec
  cases get?_inj hu hv
  cases effect_apply h.rooted op with
  | touch ht _ =>
    obtain ⟨w,hw,hk⟩ := ht.quiet.exists_get? h.rooted hu
    cases get?_inj hs hw
    simp [Segment.isFinished_of_times hk.times,hn] at hf
  | start _ _ hq _ _ htree _ =>
    rw [htree] at hu
    obtain ⟨w,hw,htimes,-⟩ := SegmentTree.exists_times_of_start (lt_size_of_get? hq) hu
      (lt_size_of_get? hs).ne
    cases get?_inj hs hw
    simp [Segment.isFinished_of_times htimes,hn] at hf
  | @finishSegment i _ _ _ _ htree _ =>
    rw [htree] at hu
    by_cases hpi : p = i
    · subst hpi
      exact SegmentTree.finalized_finish _ _ hs hn hr hu
    · obtain ⟨w,hw,hwf⟩ := SegmentTree.isFinished_of_finish h.rooted hu hf hpi
      cases get?_inj hs hw
      simp [hn] at hwf
  | finish _ _ _ hended => exact (h.apply op).ended hended p u hu

theorem finalized_apply_iff (h : Reckoned t) {u : Segment} (hu : (t.apply op).tree.get? p = some u) :
    u.finalized = true ↔ t.tree.hasResult p = true ∨ recordsStep p t op = true ∨
      (t.apply op).isFinished = true := by
  constructor
  · intro hz
    have hresult := SegmentTree.hasResult_eq_true.mpr ⟨u,hu,hz⟩
    cases effect_apply h.rooted op with
    | touch ht _ => exact Or.inl ((SegmentTree.awaiting_touch h.rooted ht).hasResult hresult)
    | start _ _ hq hs _ htree _ =>
      rw [htree] at hresult
      exact Or.inl ((SegmentTree.awaiting_start h.rooted _ hq hs).hasResult hresult)
    | finishSegment _ _ htree _ =>
      obtain ⟨s,hs,hsz | ⟨-,hn,hr⟩⟩ := SegmentTree.finalized_of_finish h.rooted (htree ▸ hu) hz
      · exact Or.inl (SegmentTree.hasResult_eq_true.mpr ⟨s,hs,hsz⟩)
      · exact Or.inr (Or.inl (recordsStep_eq_true hs hn hr hu ((h.apply op).results.ended hu hz)))
    | finish _ _ _ hended => exact Or.inr (Or.inr hended)
  · rintro (hresult | hrec | hended)
    · obtain ⟨s,hs,hz⟩ := SegmentTree.hasResult_eq_true.mp hresult
      obtain ⟨v,hv,hl⟩ := SegmentTree.Changes.later h.rooted (h.changes op 0) hs
      exact get?_inj hv hu ▸ (hl.finalized hz).1
    · exact finalized_of_recordsStep h hrec hu
    · exact (h.apply op).ended hended p u hu

def Agreed (p : ℕ) (t t' : SegmentTree) : Prop :=
  ∀ s s', t.get? p = some s → t'.get? p = some s' →
    s'.finalized = s.finalized ∧ s'.exclusive = s.exclusive

namespace Twins

theorem hasResult_eq (h : Twins same t t') (ha : Agreed p t.tree t'.tree) :
    t'.tree.hasResult p = t.tree.hasResult p := by
  unfold SegmentTree.hasResult
  cases hs : t.tree.get? p with
  | none => rw [h.tree.get?_eq_none hs]
  | some s =>
    obtain ⟨s',hs',-⟩ := h.tree.get? hs
    rw [hs',Option.any_some,Option.any_some,(ha s s' hs hs').1]

theorem agreed_apply (h : Twins same t t') (hr : Reckoned t) (hr' : Reckoned t')
    (ha : Agreed p t.tree t'.tree) (hrec : recordsStep p t' op = recordsStep p t op) :
    Agreed p (t.apply op).tree (t'.apply op).tree := by
  intro u u' hu hu'
  have hfinalized : u'.finalized = u.finalized := by
    rw [Bool.eq_iff_iff,finalized_apply_iff hr hu,finalized_apply_iff hr' hu',h.hasResult_eq ha,hrec,
      (h.apply op).isFinished]
  refine ⟨hfinalized,?_⟩
  cases hz : u.finalized with
  | false =>
    rw [(hr.apply op).results.pending hu hz,(hr'.apply op).results.pending hu' (hfinalized.trans hz)]
  | true =>
    cases hold : t.tree.hasResult p with
    | true =>
      obtain ⟨s,hs,hsz⟩ := SegmentTree.hasResult_eq_true.mp hold
      obtain ⟨s',hs',-⟩ := h.tree.get? hs
      obtain ⟨v,hv,hl⟩ := SegmentTree.Changes.later hr.rooted (hr.changes op 0) hs
      obtain ⟨v',hv',hl'⟩ := SegmentTree.Changes.later hr'.rooted (hr'.changes op 0) hs'
      cases get?_inj hu hv
      cases get?_inj hu' hv'
      obtain ⟨hfin,hex⟩ := ha s s' hs hs'
      rw [(hl.finalized hsz).2,(hl'.finalized (hfin.trans hsz)).2,hex]
    | false =>
      have hold' := (h.hasResult_eq ha).trans hold
      exact (h.apply op).tree.exclusive_eq
        (standing_apply_of_pending hr (SegmentTree.hasResult_eq_false.mp hold))
        (standing_apply_of_pending hr' (SegmentTree.hasResult_eq_false.mp hold')) hu hu' hz
        (hfinalized.trans hz)

end Twins

theorem Reckoned.neverRecords_of_finished (h : Reckoned t) {s : Segment} (hs : t.tree.get? p = some s)
    (hf : s.isFinished = true) (ops : List Operation) : t.neverRecords p ops = true := by
  induction ops generalizing t s with
  | nil => rfl
  | cons op ops ih =>
    obtain ⟨u,hu,hl⟩ := SegmentTree.Changes.later h.rooted (h.changes op 0) hs
    have hrest := ih (h.apply op) hu (hl.isFinished hf)
    have hstep : recordsStep p t op = false := by simp [recordsStep,hs,hf]
    simpa [neverRecords,always,hstep] using hrest

theorem Reckoned.neverRecords_of_recordsStep (h : Reckoned t') (hrec : recordsStep p t op = true)
    (htimes : SegmentTree.SameTimes (t.apply op).tree t'.tree) (ops : List Operation) :
    t'.neverRecords p ops = true := by
  obtain ⟨-,u,-,-,-,hu,hf⟩ := exists_of_recordsStep hrec
  obtain ⟨v,hv,he⟩ := htimes.get? hu
  exact h.neverRecords_of_finished hv ((Segment.isFinished_of_times he).trans hf) ops

namespace Twins

/-- If a segment records on finish in both runs or in neither, it does so in the same step. -/
theorem agreed_run (h : Twins same t t') (hr : Reckoned t) (hr' : Reckoned t')
    (ha : Agreed p t.tree t'.tree) {ops : List Operation}
    (hrec : t'.neverRecords p ops = t.neverRecords p ops) :
    Agreed p (t.run ops).tree (t'.run ops).tree := by
  induction ops generalizing t t' with
  | nil => exact ha
  | cons op ops ih =>
    have htimes := (h.apply op).tree.sameTimes
    simp only [neverRecords,always] at hrec
    suffices hstep : recordsStep p t' op = recordsStep p t op ∧
        (t'.apply op).neverRecords p ops = (t.apply op).neverRecords p ops by
      exact ih (h.apply op) (hr.apply op) (hr'.apply op) (h.agreed_apply hr hr' ha hstep.1) hstep.2
    cases hstep : recordsStep p t op with
    | true =>
      have hnext := (hr.apply op).neverRecords_of_recordsStep hstep (.refl _) ops
      have hnext' := (hr'.apply op).neverRecords_of_recordsStep hstep htimes ops
      simp only [neverRecords] at hnext hnext'
      exact ⟨by simpa [hstep,hnext'] using hrec,hnext'.trans hnext.symm⟩
    | false =>
      cases hstep' : recordsStep p t' op with
      | true =>
        have hnext := (hr.apply op).neverRecords_of_recordsStep hstep' htimes.symm ops
        simp only [neverRecords] at hnext
        simp [hstep,hstep',hnext] at hrec
      | false => exact ⟨rfl,by simpa [neverRecords,hstep,hstep'] using hrec⟩

theorem run (h : Twins same t t') (ops : List Operation) : Twins same (t.run ops) (t'.run ops) := by
  induction ops generalizing t t' with
  | nil => exact h
  | cons op ops ih => exact ih (h.apply op)

/-- On the same side of both limits a segment records on finish in both runs or in neither. -/
theorem neverRecords_eq (h : Twins same t t') (hp : same p) (ops : List Operation) :
    t'.neverRecords p ops = t.neverRecords p ops := by
  induction ops generalizing t t' with
  | nil => rfl
  | cons op ops ih =>
    have hstep : recordsStep p t' op = recordsStep p t op := by
      rw [recordsStep,recordsStep,(h.apply op).tree.sameTimes.any_isFinished]
      cases hs : t.tree.get? p with
      | none => rw [h.tree.get?_eq_none hs]
      | some s =>
        obtain ⟨s',hs',htwin⟩ := h.tree.get? hs
        rw [hs',Option.any_some,Option.any_some,htwin.isFinished,htwin.recordOnFinish hp]
    have hrest := ih (h.apply op)
    simp only [neverRecords] at hrest
    simp only [neverRecords,always,hstep,hrest]

theorem neverLate_eq (h : Twins same t t') (p : ℕ) (ops : List Operation) :
    t'.neverLate p ops = t.neverLate p ops := by
  induction ops generalizing t t' with
  | nil => rfl
  | cons op ops ih =>
    have htimes := h.tree.sameTimes
    have hstep : lateStep p t' op = lateStep p t op := by
      simp only [lateStep,htimes.any_isFinished,htimes.any_not_isFinished,htimes.ancestors,htimes.size,
        (h.apply op).tree.sameTimes.any_isFinished]
    have hrest := ih (h.apply op)
    simp only [neverLate] at hrest
    simp only [neverLate,always,hstep,hrest]

end Twins

def withLimit (t : Transaction) (limit : ℕ) : Transaction :=
  { t with settings := { t.settings with segmentLimit := limit } }

theorem Fresh.withLimit (h : t.Fresh) (limit : ℕ) : (t.withLimit limit).Fresh := by
  obtain ⟨name,guid,rootGuid,traceId,start,settings,decider,rfl⟩ := h
  exact ⟨name,guid,rootGuid,traceId,start,{ settings with segmentLimit := limit },decider,rfl⟩

theorem twins_withLimit (t : Transaction) (limit : ℕ) :
    Twins (fun i => i < t.settings.segmentLimit ↔ i < limit) t (t.withLimit limit) where
  stop := rfl
  settings := rfl
  side i hi := by
    change limit ≤ i ↔ t.settings.segmentLimit ≤ i
    omega
  tree := SegmentTree.Twin.refl _ t.tree

/-- A segment is past both limits or past neither, or it records on finish in both runs or in neither,
or nothing ends below it after it has ended. -/
def Indifferent (i limit : ℕ) (t : Transaction) (ops : List Operation) : Prop :=
  (i < t.settings.segmentLimit ↔ i < limit) ∨
    (t.withLimit limit).neverRecords i ops = t.neverRecords i ops ∨ t.neverLate i ops = true

theorem Indifferent.exclusive_eq {i limit : ℕ} {ops : List Operation} {s s' : Segment}
    (hi : Indifferent i limit t ops) (h : t.Fresh) (hf : (t.run ops).isFinished = true)
    (hs : (t.run ops).tree.get? i = some s) (hs' : ((t.withLimit limit).run ops).tree.get? i = some s') :
    s'.exclusive = s.exclusive := by
  have htwins := twins_withLimit t limit
  have hr := h.reckoned
  have hr' := (h.withLimit limit).reckoned
  have hsame : Agreed i t.tree (t.withLimit limit).tree := by
    intro u u' hu hu'
    cases get?_inj hu hu'
    exact ⟨rfl,rfl⟩
  rcases hi with hside | hrec | hlate
  · exact (htwins.agreed_run hr hr' hsame (htwins.neverRecords_eq hside ops) s s' hs hs').2
  · exact (htwins.agreed_run hr hr' hsame hrec s s' hs hs').2
  · have hstand := hr.standing_run (.of_pending fun u hu => h.finalized_eq_false hu) hlate
    have hstand' := hr'.standing_run (.of_pending fun u hu => (h.withLimit limit).finalized_eq_false hu)
      ((htwins.neverLate_eq i ops).trans hlate)
    have hf' := (htwins.run ops).isFinished.trans hf
    exact (htwins.run ops).tree.exclusive_eq hstand hstand' hs hs' ((hr.run ops).ended hf i s hs)
      ((hr'.run ops).ended hf' i s' hs')

/-- Under another limit of segments every segment has the same times, every indifferent one the same
exclusive time, and if all are indifferent, the total is the same. -/
theorem Fresh.times_eq_withLimit (h : t.Fresh) (limit : ℕ) (ops : List Operation) (stop : Time)
    (frames : List String) (chance : Chance) :
    ((t.withLimit limit).run (ops ++ [.finish stop frames chance])).tree.size =
        (t.run (ops ++ [.finish stop frames chance])).tree.size ∧
      (∀ i s s', (t.run (ops ++ [.finish stop frames chance])).tree.get? i = some s →
        ((t.withLimit limit).run (ops ++ [.finish stop frames chance])).tree.get? i = some s' →
          s'.start = s.start ∧ s'.stop = s.stop ∧ s'.duration = s.duration ∧
            (Indifferent i limit t (ops ++ [.finish stop frames chance]) → s'.exclusive = s.exclusive)) ∧
      ((∀ i < (t.run (ops ++ [.finish stop frames chance])).tree.size,
          Indifferent i limit t (ops ++ [.finish stop frames chance])) →
        ((t.withLimit limit).run (ops ++ [.finish stop frames chance])).tree.totalTime =
          (t.run (ops ++ [.finish stop frames chance])).tree.totalTime) := by
  have hf := isFinished_run_finish (h.reckoned.run ops).rooted stop frames chance
  have htwin := ((twins_withLimit t limit).run (ops ++ [.finish stop frames chance])).tree
  have hr := h.reckoned.run (ops ++ [.finish stop frames chance])
  have hr' := (h.withLimit limit).reckoned.run (ops ++ [.finish stop frames chance])
  refine ⟨htwin.size,fun i s s' hs hs' => ?_,fun hall => ?_⟩
  · obtain ⟨v,hv,hsv⟩ := htwin.get? hs
    cases get?_inj hs' hv
    obtain ⟨-,hstart,hstop⟩ := Segment.times_eq.mp hsv.accounts.times
    refine ⟨hstart,hstop,?_,fun hi => hi.exclusive_eq h hf hs hs'⟩
    rw [Segment.duration,hsv.timeRange,Segment.duration]
  · rw [hr'.results.total,hr.results.total]
    refine SegmentTree.weigh_congr htwin.size fun i => ?_
    cases hs : (t.run (ops ++ [.finish stop frames chance])).tree.get? i with
    | none => rw [htwin.get?_eq_none hs]
    | some s =>
      obtain ⟨s',hs',-⟩ := htwin.get? hs
      rw [hs',Option.map_some,Option.map_some,
        (hall i (lt_size_of_get? hs)).exclusive_eq h hf hs hs']

theorem times_eq_withLimit_lateEnd :
    ((plain.withLimit 1).run (lateEnd ++ [.finish 6 [] ⟨fun _ => true,0⟩])).tree.size =
        (plain.run (lateEnd ++ [.finish 6 [] ⟨fun _ => true,0⟩])).tree.size ∧
      (∀ i s s', (plain.run (lateEnd ++ [.finish 6 [] ⟨fun _ => true,0⟩])).tree.get? i = some s →
        ((plain.withLimit 1).run (lateEnd ++ [.finish 6 [] ⟨fun _ => true,0⟩])).tree.get? i = some s' →
          s'.start = s.start ∧ s'.stop = s.stop ∧ s'.duration = s.duration ∧
            (Indifferent i 1 plain (lateEnd ++ [.finish 6 [] ⟨fun _ => true,0⟩]) →
              s'.exclusive = s.exclusive)) ∧
      ((∀ i < (plain.run (lateEnd ++ [.finish 6 [] ⟨fun _ => true,0⟩])).tree.size,
          Indifferent i 1 plain (lateEnd ++ [.finish 6 [] ⟨fun _ => true,0⟩])) →
        ((plain.withLimit 1).run (lateEnd ++ [.finish 6 [] ⟨fun _ => true,0⟩])).tree.totalTime =
          (plain.run (lateEnd ++ [.finish 6 [] ⟨fun _ => true,0⟩])).tree.totalTime) :=
  Fresh.times_eq_withLimit plain_fresh 1 lateEnd 6 [] ⟨fun _ => true,0⟩

/-- A child past the limit has its result before the end of its own child, and so another one than
under a limit that is not reached. -/
theorem exclusive_ne_withLimit : ¬ ∀ t : Transaction, t.Fresh → ∀ (limit : ℕ) (ops : List Operation)
    (stop : Time) (frames : List String) (chance : Chance),
    (∀ i, (((t.withLimit limit).run (ops ++ [.finish stop frames chance])).tree.get? i).map
          (fun s => (s.start,s.stop,s.duration,s.exclusive)) =
        ((t.run (ops ++ [.finish stop frames chance])).tree.get? i).map
          fun s => (s.start,s.stop,s.duration,s.exclusive)) ∧
      ((t.withLimit limit).run (ops ++ [.finish stop frames chance])).tree.totalTime =
        (t.run (ops ++ [.finish stop frames chance])).tree.totalTime := by
  intro h
  have hchild := (h plain plain_fresh 1 lateEnd 6 [] ⟨fun _ => true,0⟩).1 1
  have hearly : (((plain.withLimit 1).run (lateEnd ++ [.finish 6 [] ⟨fun _ => true,0⟩])).tree.get? 1).map
      (fun s => (s.start,s.stop,s.duration,s.exclusive)) = some (1,some 3,2,2) := by decide +kernel
  have hlate : ((plain.run (lateEnd ++ [.finish 6 [] ⟨fun _ => true,0⟩])).tree.get? 1).map
      (fun s => (s.start,s.stop,s.duration,s.exclusive)) = some (1,some 3,2,1) := by decide +kernel
  rw [hearly,hlate] at hchild
  exact absurd hchild (by decide)

end TraceEngine.Transaction
