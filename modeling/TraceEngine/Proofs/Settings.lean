import Mathlib.Data.List.Nodup
import TraceEngine.Settings.Basic

/-!
Settings that are gathered from sources. Each key has one place in the settings; what stands there is the value of the
first source whose entry under the key can be read, and what is logged are the entries that were refused before it.
-/
namespace TraceEngine.Settings

variable {α : Type} {kind : Kind α} {key : Key} {sources : List Source}

/-- The value of an entry, if it can be read: a text without the blanks at its ends. -/
def Entry.read? (kind : Kind α) : Entry → Option α
  | .text value => (kind.read (Text.trimmed value)).toOption
  | .unreadable _ _ _ => none

def Source.value? (kind : Kind α) (key : Key) (source : Source) : Option α := (source.get? key).bind (·.read? kind)

def refused (key : Key) (origin : Origin) (expected value cause : String) : LogRecord :=
  ⟨.warn,
    s!"Configuration: ignoring {Text.quoted value} for {key.name} from {origin.name}, expected {expected}: {cause}"⟩

/-- The warning about the entry of a source, if there is one that cannot be read. -/
def Source.refusal? (kind : Kind α) (key : Key) (source : Source) : Option LogRecord :=
  match source.get? key with
  | none => none
  | some (.unreadable expected value cause) => some (refused key source.origin expected value cause)
  | some (.text value) =>
    match kind.read (Text.trimmed value) with
    | .ok _ => none
    | .error cause => some (refused key source.origin kind.name value cause)

/-- The warnings about the entries that are tried in vain, up to the first that can be read. -/
def refusals (kind : Kind α) (key : Key) (sources : List Source) : List LogRecord :=
  (sources.takeWhile fun source => (source.value? kind key).isNone).filterMap (·.refusal? kind key)

theorem records_reportRefused (key : Key) (origin : Origin) (expected value cause : String) :
    (reportRefused key origin expected value cause).records = [refused key origin expected value cause] := rfl

theorem value_find? (kind : Kind α) (key : Key) (sources : List Source) :
    (find? kind key sources).value = sources.findSome? (·.value? kind key) := by
  induction sources with
  | nil => rfl
  | cons source rest ih =>
    rw [find?,List.findSome?_cons]
    cases hentry : source.get? key with
    | none => simp [Source.value?,hentry,ih]
    | some entry =>
      cases entry with
      | unreadable expected value cause => simp [Source.value?,Entry.read?,hentry,ih]
      | text value =>
        cases hread : kind.read (Text.trimmed value) with
        | ok a => simp [Source.value?,Entry.read?,hentry,hread,Except.toOption]
        | error cause => simp [Source.value?,Entry.read?,hentry,hread,Except.toOption,ih]

theorem records_find? (kind : Kind α) (key : Key) (sources : List Source) :
    (find? kind key sources).records = refusals kind key sources := by
  induction sources with
  | nil => rfl
  | cons source rest ih =>
    rw [refusals] at ih ⊢
    rw [find?,List.takeWhile_cons]
    cases hentry : source.get? key with
    | none => simp [Source.value?,Source.refusal?,hentry,ih]
    | some entry =>
      cases entry with
      | unreadable expected value cause =>
        simp [Source.value?,Source.refusal?,Entry.read?,hentry,ih,records_reportRefused]
      | text value =>
        cases hread : kind.read (Text.trimmed value) with
        | ok a => simp [Source.value?,Entry.read?,hentry,hread,Except.toOption]
        | error cause =>
          simp [Source.value?,Source.refusal?,Entry.read?,hentry,hread,Except.toOption,ih,records_reportRefused]

/-- How the value of a key is read, and where and as what it stands in the settings. -/
structure Place where
  Value : Type
  kind : Kind Value
  Stored : Type
  store : Value → Stored
  get : Settings → Stored

namespace Place

def plain {α : Type} (kind : Kind α) (get : Settings → α) : Place := ⟨α,kind,α,id,get⟩

def optional {α : Type} (kind : Kind α) (get : Settings → Option α) : Place := ⟨α,kind,Option α,some,get⟩

end Place

def Key.place : Key → Place
  | .appName => .plain .anyText (·.appName)
  | .logLevel => .plain .levelFilter (·.logLevel)
  | .highSecurity => .plain .boolean (·.highSecurity)
  | .developerMode => .plain .boolean (·.developerMode)
  | .distributedTracingEnabled => .plain .boolean (·.distributedTracingEnabled)
  | .sampler role => .plain .anyText fun s => (s.samplers.get role).strategy
  | .samplerRatio role => .optional .real fun s => (s.samplers.get role).ratio
  | .trustedAccountKey => .optional .anyText (·.trustedAccountKey)
  | .accountId => .optional .anyText (·.accountId)
  | .primaryApplicationId => .optional .anyText (·.primaryApplicationId)
  | .samplingTarget => .plain .wide (·.samplingTarget)
  | .samplingTargetPeriod => ⟨ℕ,.wide,Time,Time.ofSeconds,(·.samplingTargetPeriod)⟩
  | .segmentLimit => .plain .count (·.segmentLimit)
  | .transactionThreshold => .plain .seconds (·.transactionThreshold)
  | .stackTraceThreshold => .plain .seconds (·.stackTraceThreshold)
  | .syntheticsTracesLimit => .plain .count (·.syntheticsTracesLimit)

/-- What a list of sources says under a key. -/
def Key.chosen? (key : Key) (sources : List Source) : Option key.place.Stored :=
  (sources.findSome? (·.value? key.place.kind key)).map key.place.store

def Key.all : List Key := [
  .appName,.logLevel,.highSecurity,.developerMode,.distributedTracingEnabled,
  .sampler .root,.samplerRatio .root,.sampler .remoteParentSampled,.samplerRatio .remoteParentSampled,
  .sampler .remoteParentNotSampled,.samplerRatio .remoteParentNotSampled,
  .trustedAccountKey,.accountId,.primaryApplicationId,.samplingTarget,.samplingTargetPeriod,
  .segmentLimit,.transactionThreshold,.stackTraceThreshold,.syntheticsTracesLimit]

theorem Key.mem_all (key : Key) : key ∈ Key.all := by
  cases key with
  | sampler role => cases role <;> decide
  | samplerRatio role => cases role <;> decide
  | _ => decide

theorem Key.nodup_names : (Key.all.map Key.name).Nodup := by decide +kernel

theorem Key.name_injective : Function.Injective Key.name := fun a b h =>
  List.inj_on_of_nodup_map nodup_names a.mem_all b.mem_all h

theorem getD_map_id (found : Option α) (default : α) : (found.map id).getD default = found.getD default := by
  simp

theorem getD_map_some (found : Option α) : (found.map some).getD none = (found <|> none) := by
  cases found <;> rfl

/-- Where a key stands is what the sources say under it, and else the default. -/
theorem get_ofSources (key : Key) (sources : List Source) :
    key.place.get (ofSources sources).value = (key.chosen? sources).getD (key.place.get {}) := by
  rw [Key.chosen?,← value_find?]
  cases key with
  | samplingTargetPeriod => rfl
  | sampler role => cases role <;> exact (getD_map_id _ _).symm
  | samplerRatio role => cases role <;> exact (getD_map_some _).symm
  | trustedAccountKey | accountId | primaryApplicationId => exact (getD_map_some _).symm
  | _ => exact (getD_map_id _ _).symm

theorem records_ofSources (sources : List Source) :
    (ofSources sources).records = Key.all.flatMap fun key => refusals key.place.kind key sources := by
  simp only [ofSources,findSampler,PerRole.mapM,Logged.records_bind,Logged.value_bind,Logged.records_pure,
    records_find?,List.append_nil,List.append_assoc]
  simp only [Key.all,List.flatMap_cons,List.flatMap_nil,List.append_nil]
  rfl

theorem isSome_refusal? (kind : Kind α) (key : Key) (source : Source) :
    (source.refusal? kind key).isSome = true ↔ (source.get? key).isSome = true ∧ source.value? kind key = none := by
  cases hentry : source.get? key with
  | none => simp [Source.refusal?,hentry]
  | some entry =>
    cases entry with
    | unreadable expected value cause => simp [Source.refusal?,Source.value?,Entry.read?,hentry]
    | text value =>
      cases hread : kind.read (Text.trimmed value) <;>
        simp [Source.refusal?,Source.value?,Entry.read?,hentry,hread,Except.toOption]

theorem chosen?_eq (key : Key) (sources : List Source) :
    key.chosen? sources =
      ((sources.filterMap (·.get? key)).findSome? (·.read? key.place.kind)).map key.place.store := by
  rw [Key.chosen?,← List.head?_filterMap,← List.head?_filterMap,List.filterMap_filterMap]
  rfl

/-- Settings key by key. What stands at the place of a key is the value of the first source whose entry under that key
can be read, without blanks and as the kind of the key reads it, or else the default. For each key the log holds one
warning for every source before that one, or for every source if there is none such, that has an entry which cannot be
read, in the order of the sources, and nothing else is logged. Sources that hold the same entries under a key settle its
place alike, whatever they hold under the other keys, and each key has a name of its own. -/
theorem ofSources_keyed :
    (∀ (sources : List Source) (key : Key),
      key.place.get (ofSources sources).value =
        ((sources.findSome? (·.value? key.place.kind key)).map key.place.store).getD (key.place.get {})) ∧
      (∀ sources : List Source,
        (ofSources sources).records =
          Key.all.flatMap fun key =>
            (sources.takeWhile fun source => (source.value? key.place.kind key).isNone).filterMap
              (·.refusal? key.place.kind key)) ∧
      (∀ (source : Source) (key : Key),
        (source.refusal? key.place.kind key).isSome = true ↔
          (source.get? key).isSome = true ∧ source.value? key.place.kind key = none) ∧
      (∀ (sources others : List Source) (key : Key),
        sources.filterMap (·.get? key) = others.filterMap (·.get? key) →
          key.place.get (ofSources sources).value = key.place.get (ofSources others).value) ∧
      Key.all.Nodup ∧ (∀ key : Key, key ∈ Key.all) ∧ Function.Injective Key.name := by
  refine ⟨fun sources key => get_ofSources key sources,records_ofSources,
    fun source key => isSome_refusal? key.place.kind key source,fun sources others key h => ?_,by decide,
    Key.mem_all,Key.name_injective⟩
  rw [get_ofSources,get_ofSources,chosen?_eq,chosen?_eq,h]

/-- A text that is no value of the kind, a source without the key, a value between blanks, and one that comes too late,
among entries under other keys. -/
def mixedSources : List Source := [
  ⟨.host,[("APM_HIGH_SECURITY",.text "foo"),("APM_ACCOUNT_ID",.text "33")]⟩,
  ⟨.environment,[("APM_DEVELOPER_MODE",.text "true")]⟩,
  ⟨.environment,[("APM_HIGH_SECURITY",.text " true ")]⟩,
  ⟨.environment,[("APM_HIGH_SECURITY",.text "false"),("APM_LOG_LEVEL",.text "foo")]⟩]

def mixedSecurity : List Source :=
  mixedSources.map fun source => { source with entries := source.entries.filter (·.1 = "APM_HIGH_SECURITY") }

theorem ofSources_keyed_mixed :
    mixedSources.filterMap (·.get? .highSecurity) = mixedSecurity.filterMap (·.get? .highSecurity) ∧
      (ofSources mixedSources).value.highSecurity = true ∧ (ofSources mixedSecurity).value.highSecurity = true := by
  obtain ⟨hvalue,-,-,hagree,-⟩ := ofSources_keyed
  have hsame : mixedSources.filterMap (·.get? .highSecurity) = mixedSecurity.filterMap (·.get? .highSecurity) := by
    decide +kernel
  have hfirst : mixedSources.findSome? (·.value? .boolean .highSecurity) = some true := by decide +kernel
  have htrue : (ofSources mixedSources).value.highSecurity = true :=
    (hvalue mixedSources .highSecurity).trans (congrArg (Option.getD · false) hfirst)
  exact ⟨hsame,htrue,(hagree mixedSources mixedSecurity .highSecurity hsame).symm.trans htrue⟩

end TraceEngine.Settings
