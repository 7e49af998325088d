import TraceEngine.Binary64.Basic

/-!
Structured values, as samples and their attributes carry them. Whole numbers and floating-point numbers
are different values.
-/
namespace TraceEngine

inductive Json
  | null
  | bool (b : Bool)
  | integer (n : Int)
  | real (x : Binary64)
  | string (s : String)
  | array (items : List Json)
  | object (fields : List (String × Json))

namespace Json

def ofOption : Option Json → Json
  | none => null
  | some j => j

def strings (items : List String) : Json := array (items.map string)

/-- The value of the first field of that name. -/
def field? (j : Json) (name : String) : Option Json :=
  match j with
  | object fields => fields.lookup name
  | _ => none

end Json

end TraceEngine
