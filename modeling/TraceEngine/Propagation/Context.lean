import TraceEngine.Propagation.Carrier
import TraceEngine.Propagation.Payload
import TraceEngine.Text.Blank

/-!
Trace contexts in headers. The parent header names trace, parent and flags; the state header is a list of
members of which at most one is the own entry, and the others are passed on.
-/
namespace TraceEngine

open Text

structure TraceParent where
  version : Nat
  traceId : TraceId
  parentId : SpanId
  flags : Nat
  deriving DecidableEq

def TraceParent.isSampled (p : TraceParent) : Bool := decide (p.flags % 2 = 1)

structure TraceContext where
  parent : TraceParent
  own : Option StatePayload := none
  /-- There is an own entry, but it cannot be read. -/
  ownInvalid : Bool := false
  /-- The members of others, in order. -/
  others : List String := []
  deriving DecidableEq

structure OutboundContext where
  traceId : TraceId
  /-- The segment that makes the request. -/
  parentId : SpanId
  sampled : Bool
  entry : Option (String × StatePayload) := none
  others : List String := []
  deriving DecidableEq

namespace TraceContext

def traceId (c : TraceContext) : TraceId := c.parent.traceId

def parentId (c : TraceContext) : SpanId := c.parent.parentId

/-- The flag of the own entry, not that of the parent header. -/
def sampled (c : TraceContext) : Option Bool := c.own.bind (·.sampled)

def priority (c : TraceContext) : Option Binary64 := c.own.bind (·.priority)

def inherited (c : TraceContext) : Inherited := (c.own.map (·.inherited)).getD {}

end TraceContext

def parentHeader : String := "traceparent"

def stateHeader : String := "tracestate"

def maxMembers : Nat := 32

/-- The name of the own entry, made from the trusted account if there is one, else from the own account. -/
def entryKey? (trusted account : Option String) : Option String :=
  match trusted <|> account with
  | some key => if key.isEmpty then none else some (key ++ "@nr")
  | none => none

def logContext (text : String) : Logged Unit := .write .debug s!"Propagator (tracecontext): {text}"

/-- A run of small hexadecimal digits of a given length, and what follows it. -/
def hexField? (width : Nat) (s : List Char) : Option (List Char × List Char) :=
  let digits := s.take width
  if digits.length = width && digits.all isLowerHex then some (digits,s.drop width) else none

def dash? : List Char → Option (List Char)
  | '-' :: rest => some rest
  | _ => none

/-- The four fields of a parent header, and a tail that begins with a dash and stays on its line. -/
structure ParentFields where
  version : List Char
  traceId : List Char
  parentId : List Char
  flags : List Char
  tail : List Char

def ParentFields.read? (s : List Char) : Option ParentFields := do
  let (version,s) ← hexField? 2 s
  let (traceId,s) ← hexField? 32 (← dash? s)
  let (parentId,s) ← hexField? 16 (← dash? s)
  let (flags,tail) ← hexField? 2 (← dash? s)
  if tail.isEmpty || (tail.head? = some '-' && !tail.contains '\n') then
    some ⟨version,traceId,parentId,flags,tail⟩
  else none

def hexOf (digits : List Char) : Nat := (hexNumber? digits).getD 0

/-- A version above the known one is read as far as it is known. The header is taken apart at once, so that no
field is left that cannot be read; `readInParts` reads one field after another and is proved to be the same. -/
def TraceParent.read (s : List Char) : Logged (Except ContextFault TraceParent) :=
  match ParentFields.read? s with
  | none => pure (.error .malformedParent)
  | some f =>
    let parent : TraceParent := ⟨hexOf f.version,.ofNat (hexOf f.traceId),.ofNat (hexOf f.parentId),hexOf f.flags⟩
    if !parent.traceId.isValid then pure (.error .zeroTraceId)
    else if !parent.parentId.isValid then pure (.error .zeroSpanId)
    else if parent.version = 255 then pure (.error .reservedVersion)
    else if parent.version = 0 then
      pure (if f.tail.isEmpty then .ok parent else .error .tailInVersionZero)
    else do
      logContext s!"Unsupported traceparent version {String.ofList f.version}, still attempting to parse"
      return .ok parent

def TraceParent.text (traceId : TraceId) (parentId : SpanId) (sampled : Bool) : String :=
  s!"00-{traceId.text}-{parentId.text}-" ++ if sampled then "01" else "00"

/-- The members of a state header by whose they are. -/
structure TraceState where
  own : Option StatePayload := none
  ownInvalid : Bool := false
  others : List String := []
  deriving DecidableEq

namespace TraceState

/-- Only the leftmost entry of our own counts, valid or not. -/
def add (key : Option String) (state : TraceState) (member : List Char) : Logged TraceState :=
  let name := member.takeWhile (· != '=')
  match member.dropWhile (· != '=') with
  | [] => do
    logContext s!"dropping tracestate member without value {String.ofList member}"
    return state
  | _ :: value =>
    if key != some (String.ofList (trim name)) then
      pure { state with others := state.others ++ [String.ofList member] }
    else if state.own.isSome || state.ownInvalid then pure state
    else
      match StatePayload.read value with
      | .ok payload => pure { state with own := some payload }
      | .error e => do
        .write .warn (s!"Propagator (tracecontext): ignoring invalid tracestate entry {String.ofList member}: " ++
          e.message)
        return { state with ownInvalid := true }

def members (s : List Char) : List (List Char) := ((s.splitOn ',').map trim).filter (!·.isEmpty)

def isPrintable (c : Char) : Bool := decide (' ' ≤ c ∧ c ≤ '~')

/-- A header with a character that cannot be printed is dropped as a whole. -/
def read (key : Option String) (s : String) : Logged TraceState :=
  if s.toList.all isPrintable then (members s.toList).foldlM (add key) {}
  else do
    logContext s!"received invalid tracestate header {s}"
    return {}

/-- The own entry goes first, and the members at the end are dropped beyond the limit. -/
def text (entry : Option (String × StatePayload)) (others : List String) : String :=
  let own := entry.map fun (key,payload) => s!"{key}={payload.text}"
  ",".intercalate ((own.toList ++ others).take maxMembers)

end TraceState

/-- Reads the context of a request. Without a parent header there is none; an own entry that is missing or
malformed is no fault. -/
def TraceContext.extract (c : Carrier) (key : Option String) : Logged (Except ContextFault (Option TraceContext)) :=
  match c.single parentHeader with
  | .error e => pure (.error e)
  | .ok none => pure (.ok none)
  | .ok (some header) => do
    match ← TraceParent.read (trim header.toList) with
    | .error e => return .error e
    | .ok parent =>
      logContext "traceparent extracted successfully"
      let state ← match c.joined? stateHeader with
        | some header => TraceState.read key header
        | none => do
          logContext "no tracestate header found"
          pure {}
      if key.isSome && state.own.isNone && !state.ownInvalid then ContextFault.noOwnEntry.report
      return .ok (some ⟨parent,state.own,state.ownInvalid,state.others⟩)

/-- Writes a context on a request, in place of one that is there. Zero ids are never written. -/
def OutboundContext.inject (o : OutboundContext) (c : Carrier) : Logged Carrier :=
  if o.traceId.isValid && o.parentId.isValid then do
    let parent := TraceParent.text o.traceId o.parentId o.sampled
    logContext s!"injecting traceparent: {parent}"
    let c := c.set parentHeader parent
    let state := TraceState.text o.entry o.others
    if state.isEmpty then return c
    else
      logContext s!"injecting tracestate: {state}"
      return c.set stateHeader state
  else do
    logContext "skipping inject of an invalid context"
    return c

end TraceEngine
