import TraceEngine.Binary64.Reading
import TraceEngine.Log
import TraceEngine.Sampling.Role
import TraceEngine.Text.Blank
import TraceEngine.Text.Quoted
import TraceEngine.Time

/-!
Named values from several sources. The sources are asked in order, and the first value that can be read
counts; every value refused on the way is reported.
-/
namespace TraceEngine.Settings

inductive Key
  | appName
  | logLevel
  | highSecurity
  | developerMode
  | distributedTracingEnabled
  | sampler (role : SamplerRole)
  | samplerRatio (role : SamplerRole)
  | trustedAccountKey
  | accountId
  | primaryApplicationId
  | samplingTarget
  | samplingTargetPeriod
  | segmentLimit
  | transactionThreshold
  | stackTraceThreshold
  | syntheticsTracesLimit
  deriving DecidableEq, Repr

def roleKeyName : SamplerRole → String
  | .root => "ROOT"
  | .remoteParentSampled => "REMOTE_PARENT_SAMPLED"
  | .remoteParentNotSampled => "REMOTE_PARENT_NOT_SAMPLED"

def Key.name : Key → String
  | appName => "APM_APP_NAME"
  | logLevel => "APM_LOG_LEVEL"
  | highSecurity => "APM_HIGH_SECURITY"
  | developerMode => "APM_DEVELOPER_MODE"
  | distributedTracingEnabled => "APM_DISTRIBUTED_TRACING_ENABLED"
  | sampler role => "APM_DISTRIBUTED_TRACING_SAMPLER_" ++ roleKeyName role
  | samplerRatio role => "APM_DISTRIBUTED_TRACING_SAMPLER_" ++ roleKeyName role ++ "_RATIO"
  | trustedAccountKey => "APM_TRUSTED_ACCOUNT_KEY"
  | accountId => "APM_ACCOUNT_ID"
  | primaryApplicationId => "APM_PRIMARY_APPLICATION_ID"
  | samplingTarget => "APM_SAMPLING_TARGET"
  | samplingTargetPeriod => "APM_SAMPLING_TARGET_PERIOD_IN_SECONDS"
  | segmentLimit => "APM_TRANSACTION_TRACER_LIMIT_SEGMENTS"
  | transactionThreshold => "APM_TRANSACTION_TRACER_TRANSACTION_THRESHOLD"
  | stackTraceThreshold => "APM_TRANSACTION_TRACER_STACK_TRACE_THRESHOLD"
  | syntheticsTracesLimit => "APM_SYNTHETICS_TRACES_LIMIT"

inductive Origin
  | environment
  | host
  deriving DecidableEq, Repr

def Origin.name : Origin → String
  | environment => "EnvVar"
  | host => "Code"

/-- What a source holds under a name: a text, or a value that the source itself could not make out. -/
inductive Entry
  | text (value : String)
  | unreadable (expected value cause : String)
  deriving DecidableEq, Repr

structure Source where
  origin : Origin
  entries : List (String × Entry)

def Source.get? (s : Source) (key : Key) : Option Entry := s.entries.lookup key.name

/-- A kind of value: its name in reports and how its text, without blanks at the ends, is read. -/
structure Kind (α : Type) where
  name : String
  read : String → Except String α

namespace Kind

def anyText : Kind String := ⟨"text",.ok⟩

def boolean : Kind Bool where
  name := "bool"
  read s :=
    if s = "true" then .ok true
    else if s = "false" then .ok false
    else .error "provided string was not `true` or `false`"

def natural (name : String) : Kind Nat :=
  ⟨name,fun s => (Text.readNatural (Text.maxOfBits 64) s.toList).mapError Text.NaturalFault.message⟩

/-- A number that stands for itself. -/
def wide : Kind Nat := natural "u64"

def count : Kind Nat := natural "usize"

def real : Kind Binary64 :=
  ⟨"f64",fun s => (Binary64.read s.toList).mapError Binary64.ReadingFault.message⟩

def levelFilter : Kind LevelFilter :=
  ⟨"apm_trace::log::LevelFilter",fun s => (LevelFilter.read s).mapError LevelFilterFault.message⟩

def seconds : Kind Time where
  name := "apm_trace::configuration::configuration::Config::from_sources::Seconds"
  read s := do
    let x ← real.read s
    (Time.ofBinary64 x).mapError Time.SecondsFault.message

end Kind

def reportRefused (key : Key) (origin : Origin) (expected value cause : String) : Logged Unit :=
  .write .warn
    s!"Configuration: ignoring {Text.quoted value} for {key.name} from {origin.name}, expected {expected}: {cause}"

/-- The value of the first source whose entry can be read. -/
def find? {α : Type} (kind : Kind α) (key : Key) : List Source → Logged (Option α)
  | [] => pure none
  | source :: rest =>
    match source.get? key with
    | none => find? kind key rest
    | some (.unreadable expected value cause) => do
      reportRefused key source.origin expected value cause
      find? kind key rest
    | some (.text value) =>
      match kind.read (Text.trimmed value) with
      | .ok a => pure (some a)
      | .error cause => do
        reportRefused key source.origin kind.name value cause
        find? kind key rest

end TraceEngine.Settings
