import TraceEngine.Settings.Source

/-!
The settings of an engine, their defaults, and how they are gathered from sources.
-/
namespace TraceEngine

/-- The settings of the sampler for one role. The strategy is kept as it was written. -/
structure SamplerSettings where
  strategy : String := "adaptive"
  ratio : Option Binary64 := none

structure Settings where
  appName : String := "unnamed-service"
  logLevel : LevelFilter := .error
  /-- Leaves error messages out of what is recorded. -/
  highSecurity : Bool := false
  /-- Keeps every transaction for inspection. -/
  developerMode : Bool := false
  distributedTracingEnabled : Bool := true
  samplers : PerRole SamplerSettings := .same {}
  trustedAccountKey : Option String := none
  accountId : Option String := none
  primaryApplicationId : Option String := none
  /-- How many transactions the adaptive sampler aims to keep in a period. -/
  samplingTarget : Nat := 10
  samplingTargetPeriod : Time := Time.ofSeconds 60
  /-- How many segments of a transaction a sample may hold. -/
  segmentLimit : Nat := 4000
  /-- The least duration of a transaction that is kept for being slow. -/
  transactionThreshold : Time := Time.ofSeconds 2
  /-- The least duration of a segment that gets a backtrace. -/
  stackTraceThreshold : Time := Time.second / 2
  syntheticsTracesLimit : Nat := 20

namespace Settings

def agentVersion : String := "0.1.0"

def findSampler (sources : List Source) (role : SamplerRole) (default : SamplerSettings) :
    Logged SamplerSettings := do
  let strategy ← find? .anyText (.sampler role) sources
  let ratio ← find? .real (.samplerRatio role) sources
  return ⟨strategy.getD default.strategy,ratio <|> default.ratio⟩

/-- Every setting is looked up on its own; what no source gives keeps its default. -/
def ofSources (sources : List Source) : Logged Settings := do
  let default : Settings := {}
  let appName ← find? .anyText .appName sources
  let logLevel ← find? .levelFilter .logLevel sources
  let highSecurity ← find? .boolean .highSecurity sources
  let developerMode ← find? .boolean .developerMode sources
  let enabled ← find? .boolean .distributedTracingEnabled sources
  let samplers ← default.samplers.mapM (findSampler sources)
  let trustedAccountKey ← find? .anyText .trustedAccountKey sources
  let accountId ← find? .anyText .accountId sources
  let primaryApplicationId ← find? .anyText .primaryApplicationId sources
  let samplingTarget ← find? .wide .samplingTarget sources
  let samplingTargetPeriod ← find? .wide .samplingTargetPeriod sources
  let segmentLimit ← find? .count .segmentLimit sources
  let transactionThreshold ← find? .seconds .transactionThreshold sources
  let stackTraceThreshold ← find? .seconds .stackTraceThreshold sources
  let syntheticsTracesLimit ← find? .count .syntheticsTracesLimit sources
  return {
    appName := appName.getD default.appName
    logLevel := logLevel.getD default.logLevel
    highSecurity := highSecurity.getD default.highSecurity
    developerMode := developerMode.getD default.developerMode
    distributedTracingEnabled := enabled.getD default.distributedTracingEnabled
    samplers
    trustedAccountKey := trustedAccountKey <|> default.trustedAccountKey
    accountId := accountId <|> default.accountId
    primaryApplicationId := primaryApplicationId <|> default.primaryApplicationId
    samplingTarget := samplingTarget.getD default.samplingTarget
    samplingTargetPeriod := (samplingTargetPeriod.map Time.ofSeconds).getD default.samplingTargetPeriod
    segmentLimit := segmentLimit.getD default.segmentLimit
    transactionThreshold := transactionThreshold.getD default.transactionThreshold
    stackTraceThreshold := stackTraceThreshold.getD default.stackTraceThreshold
    syntheticsTracesLimit := syntheticsTracesLimit.getD default.syntheticsTracesLimit
  }

end Settings

end TraceEngine
