import TraceEngine.Log

/-!
Why the trace context of a request cannot be read.
-/
namespace TraceEngine

inductive ContextFault
  | repeatedHeader
  | malformedParent
  | zeroTraceId
  | zeroSpanId
  | reservedVersion
  | tailInVersionZero
  | tooFewFields
  | badPayloadVersion
  | tooManyFields
  | badParentType
  | missingAccountId
  | missingAppId
  | badSampledFlag
  | badPriority
  | badTimestamp
  | noOwnEntry
  deriving DecidableEq, Repr

namespace ContextFault

def place : ContextFault → String
  | repeatedHeader => "carrier"
  | malformedParent | zeroTraceId | zeroSpanId | reservedVersion | tailInVersionZero => "traceparent"
  | tooFewFields | badPayloadVersion | tooManyFields | badParentType | missingAccountId | missingAppId
  | badSampledFlag | badPriority | badTimestamp | noOwnEntry => "tracestate"

def text : ContextFault → String
  | repeatedHeader => "Multiple values while getting a single value"
  | malformedParent => "invalid traceparent"
  | zeroTraceId => "`0` value for trace_id is invalid"
  | zeroSpanId => "`0` value for span_id is invalid"
  | reservedVersion => "`ff` is an invalid traceparent version"
  | tailInVersionZero => "Traceparent with version `00` should contain only 4 values delimited by `-`"
  | tooFewFields => "too few fields"
  | badPayloadVersion => "invalid payload version"
  | tooManyFields => "too many fields"
  | badParentType => "invalid parent type"
  | missingAccountId => "missing parent account id"
  | missingAppId => "missing parent app id"
  | badSampledFlag => "invalid sampled flag"
  | badPriority => "invalid priority"
  | badTimestamp => "invalid timestamp"
  | noOwnEntry => "no entry for this account"

def message (e : ContextFault) : String := s!"Cannot extract from {e.place}, {e.text}"

/-- A missing entry is common and no cause for a warning. -/
def level : ContextFault → Level
  | noOwnEntry => .debug
  | _ => .warn

def report (e : ContextFault) : Logged Unit := .write e.level s!"Propagation: {e.message}"

end ContextFault

end TraceEngine
