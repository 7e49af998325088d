import TraceEngine.Propagation.Fault
import TraceEngine.Text.LetterCase

/-!
Carriers of header fields: a list in the order of the request, where the case of ASCII letters in a name does
not count and a name may come more than once, or a map with names in lower case.
-/
namespace TraceEngine

abbrev HeaderField := String × String

inductive Carrier
  | list (fields : List HeaderField)
  | map (fields : List HeaderField)
  deriving DecidableEq, Repr

namespace Carrier

def sameName (a b : String) : Bool := a.toList.map Char.toLower = b.toList.map Char.toLower

/-- Puts a value under a name of a map, in place of one that is there. -/
def put (fields : List HeaderField) (name value : String) : List HeaderField :=
  fields.filter (·.1 != name) ++ [(name,value)]

/-- A map of the given fields, their names as they are. -/
def mapOf (fields : List HeaderField) : Carrier := map (fields.foldl (fun m f => put m f.1 f.2) [])

def fields : Carrier → List HeaderField
  | list fields => fields
  | map fields => fields

def set (c : Carrier) (name value : String) : Carrier :=
  match c with
  | list fields => list (fields.filter (!sameName ·.1 name) ++ [(name,value)])
  | map fields => map (put fields (Text.lowercase name) value)

def values (c : Carrier) (name : String) : List String :=
  match c with
  | list fields => (fields.filter (sameName ·.1 name)).map (·.2)
  | map fields => (fields.lookup (Text.lowercase name)).toList

def get? (c : Carrier) (name : String) : Option String := (c.values name).head?

def getAll? (c : Carrier) (name : String) : Option (List String) :=
  let values := c.values name
  if values.isEmpty then none else some values

def names (c : Carrier) : List String := c.fields.map (·.1)

def single (c : Carrier) (name : String) : Except ContextFault (Option String) :=
  match c.values name with
  | [] => .ok none
  | [value] => .ok (some value)
  | _ => .error .repeatedHeader

/-- The values of a field that may be repeated, joined by commas; empty ones are left out. -/
def joined? (c : Carrier) (name : String) : Option String :=
  (c.getAll? name).map fun values => ",".intercalate (values.filter (!·.isEmpty))

end Carrier

end TraceEngine
