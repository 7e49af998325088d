import TraceEngine.Text.Hidden
import TraceEngine.Text.Hex

/-!
Quoted text: between double quotes, with a backslash in front of quotes and backslashes, short names
for four controls, and the number of every other hidden character.
-/
namespace TraceEngine.Text

def escape (c : Char) : List Char :=
  match c with
  | '\x00' => ['\\','0']
  | '\t' => ['\\','t']
  | '\n' => ['\\','n']
  | '\r' => ['\\','r']
  | '"' => ['\\','"']
  | '\\' => ['\\','\\']
  | c => if isHidden c then ['\\','u','\x7b'] ++ hex c.toNat ++ ['\x7d'] else [c]

def quoted (s : String) : String :=
  String.ofList ('"' :: s.toList.flatMap escape ++ ['"'])

end TraceEngine.Text
