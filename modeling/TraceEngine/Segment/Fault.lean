import TraceEngine.Text.Quoted
import TraceEngine.Uri.Basic

/-!
What can be wrong with a request for a segment.
-/
namespace TraceEngine

inductive SegmentFault
  | missingArgument (name : String)
  | badUri (uri : String) (cause : Uri.Fault)
  | unknownSegment (id : Nat)
  | transactionFinished
  deriving DecidableEq, Repr

def SegmentFault.message : SegmentFault → String
  | missingArgument name => s!"missing required argument `{name}`"
  | badUri uri cause => s!"invalid uri {Text.quoted uri}: {cause.message}"
  | unknownSegment id => s!"no segment SegmentId({id}) in this transaction"
  | transactionFinished => "transaction is already finished"

/-- An argument without blanks at its ends, of which something must be left. -/
def required (name value : String) : Except SegmentFault String :=
  match Text.nonBlank? value with
  | some value => .ok value
  | none => .error (.missingArgument name)

/-- An address that is fit to be recorded, as some library reads it. -/
def Uri.Library.record {α : Type} (L : Library α) (uri : String) : Except SegmentFault α :=
  match L.parse uri with
  | .error cause => .error (.badUri uri cause)
  | .ok u => if (L.parts u).hasHost then .ok (L.cleared u) else .error (.badUri uri .emptyHost)

def readRedacted (uri : String) : Except SegmentFault Uri := Uri.library.record uri

end TraceEngine
