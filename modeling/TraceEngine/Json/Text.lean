import TraceEngine.Binary64.Decimal
import TraceEngine.Json.Basic
import TraceEngine.Text.Hex

/-!
Structured values as text. A number that is not finite is written as null.
-/
namespace TraceEngine.Json

def escape (c : Char) : List Char :=
  match c with
  | '"' => ['\\','"']
  | '\\' => ['\\','\\']
  | c => if c.toNat < 0x20 then '\\' :: 'u' :: Text.fixedHex 4 c.toNat else [c]

def quote (s : String) : List Char := '"' :: s.toList.flatMap escape ++ ['"']

def realText (x : Binary64) : List Char := if x.isNaN || x.isInfinite then "null".toList else x.text.toList

mutual

def chars : Json → List Char
  | null => "null".toList
  | bool b => (toString b).toList
  | integer n => (toString n).toList
  | real x => realText x
  | string s => quote s
  | array items => '[' :: itemsChars items ++ [']']
  | object fields => '\x7b' :: fieldsChars fields ++ ['\x7d']

def itemsChars : List Json → List Char
  | [] => []
  | [j] => chars j
  | j :: rest => chars j ++ ',' :: itemsChars rest

def fieldsChars : List (String × Json) → List Char
  | [] => []
  | [(name,j)] => quote name ++ ':' :: chars j
  | (name,j) :: rest => quote name ++ ':' :: chars j ++ ',' :: fieldsChars rest

end

def text (j : Json) : String := String.ofList j.chars

end TraceEngine.Json
