import TraceEngine.Binary64.Decimal
import TraceEngine.Binary64.Reading
import TraceEngine.Propagation.Fault
import TraceEngine.Sampling.Decision

/-!
The own entry of a trace state: nine fields with dashes between them. The ids of span and transaction, the
sampled flag and the priority may be empty; a later version may have more fields at the end.
-/
namespace TraceEngine

/-- What kind of program wrote an entry. -/
inductive ParentType
  | app
  | browser
  | mobile
  deriving DecidableEq, Repr

namespace ParentType

def ofId? : Nat → Option ParentType
  | 0 => some app
  | 1 => some browser
  | 2 => some mobile
  | _ => none

def id : ParentType → Nat
  | app => 0
  | browser => 1
  | mobile => 2

def name : ParentType → String
  | app => "App"
  | browser => "Browser"
  | mobile => "Mobile"

@[simp] theorem ofId?_id (t : ParentType) : ofId? t.id = some t := by cases t <;> rfl

end ParentType

structure StatePayload where
  version : Nat := 0
  parentType : ParentType := .app
  accountId : String := ""
  appId : String := ""
  id : Option String := none
  transactionId : Option String := none
  sampled : Option Bool := none
  priority : Option Binary64 := none
  /-- Milliseconds. -/
  timestamp : Nat := 0
  deriving DecidableEq

namespace StatePayload

open Text

def inherited (p : StatePayload) : Inherited := ⟨p.sampled,p.priority⟩

def nonEmpty? (field : List Char) : Option String := if field.isEmpty then none else some (String.ofList field)

def natural? (bits : Nat) (field : List Char) : Option Nat := (readNatural (maxOfBits bits) field).toOption

def readSampled (field : List Char) : Except ContextFault (Option Bool) :=
  match String.ofList field with
  | "" => .ok none
  | "1" | "true" => .ok (some true)
  | "0" | "false" => .ok (some false)
  | _ => .error .badSampledFlag

/-- Only a finite number is a priority. -/
def readPriority (field : List Char) : Except ContextFault (Option Binary64) :=
  match field, Binary64.read field with
  | [], _ => .ok none
  | _, .ok x => if x.isNaN || x.isInfinite then .error .badPriority else .ok (some x)
  | _, .error _ => .error .badPriority

def orFault {α : Type} (a : Option α) (e : ContextFault) : Except ContextFault α :=
  match a with
  | some a => .ok a
  | none => .error e

/-- The fields are judged from left to right, after their number and the version. -/
def read (s : List Char) : Except ContextFault StatePayload :=
  match (trim s).splitOn '-' with
  | version :: parentType :: account :: app :: id :: transaction :: sampled :: priority :: timestamp :: more => do
    let version ← orFault (natural? 8 version) .badPayloadVersion
    if version = 0 && !more.isEmpty then .error .tooManyFields
    else
      let parentType ← orFault ((natural? 8 parentType).bind ParentType.ofId?) .badParentType
      let accountId ← orFault (nonEmpty? account) .missingAccountId
      let appId ← orFault (nonEmpty? app) .missingAppId
      let sampled ← readSampled sampled
      let priority ← readPriority priority
      let timestamp ← orFault (natural? 64 timestamp) .badTimestamp
      return { version, parentType, accountId, appId, id := nonEmpty? id, transactionId := nonEmpty? transaction,
               sampled, priority, timestamp }
  | _ => .error .tooFewFields

def sampledText : Option Bool → String
  | some true => "1"
  | some false => "0"
  | none => ""

def priorityText : Option Binary64 → String
  | some p => (p.roundPlaces Priority.places).fixed Priority.places
  | none => ""

def text (p : StatePayload) : String :=
  "-".intercalate [toString p.version,toString p.parentType.id,p.accountId,p.appId,p.id.getD "",
    p.transactionId.getD "",sampledText p.sampled,priorityText p.priority,toString p.timestamp]

end StatePayload

end TraceEngine
