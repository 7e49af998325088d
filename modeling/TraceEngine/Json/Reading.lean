import TraceEngine.Binary64.Reading
import TraceEngine.Json.Basic
import TraceEngine.Text.Hex

/-!
Structured values from text. A number is whole if it is written without point and exponent and has room in 64 bits,
signed or not; every other is a floating-point number, and so is a negative zero.
-/
namespace TraceEngine.Json

open Text

def isSpace (c : Char) : Bool := c = ' ' || c = '\t' || c = '\n' || c = '\r'

def skipSpace (s : List Char) : List Char := s.dropWhile isSpace

/-- The character that stands behind a backslash for another. -/
def unescaped? : Char → Option Char
  | 'n' => some '\n'
  | 't' => some '\t'
  | 'r' => some '\r'
  | 'b' => some '\x08'
  | 'f' => some '\x0c'
  | '"' => some '"'
  | '\\' => some '\\'
  | '/' => some '/'
  | _ => none

/-- The numbers of the characters up to the closing quote, and what follows it. Four hexadecimal digits may stand
for half a character only. -/
def readUnits? : List Char → Option (List Nat × List Char)
  | [] => none
  | '"' :: rest => some ([],rest)
  | '\\' :: 'u' :: a :: b :: c :: d :: rest => do
    let n ← hexNumber? [a,b,c,d]
    let (units,rest) ← readUnits? rest
    return (n :: units,rest)
  | '\\' :: c :: rest => do
    let c ← unescaped? c
    let (units,rest) ← readUnits? rest
    return (c.toNat :: units,rest)
  | c :: rest =>
    if c.toNat < 0x20 then none else (readUnits? rest).map fun (units,rest) => (c.toNat :: units,rest)

def isHighHalf (n : Nat) : Bool := decide (0xd800 ≤ n ∧ n < 0xdc00)

def isLowHalf (n : Nat) : Bool := decide (0xdc00 ≤ n ∧ n < 0xe000)

/-- Puts the two halves of a character together. A half on its own is no character. -/
def joinHalves? : List Nat → Option (List Char)
  | [] => some []
  | n :: rest =>
    if isLowHalf n then none
    else if isHighHalf n then
      match rest with
      | low :: rest =>
        if isLowHalf low then
          (joinHalves? rest).map (Char.ofNat (0x10000 + (n - 0xd800) * 0x400 + (low - 0xdc00)) :: ·)
        else none
      | [] => none
    else (joinHalves? rest).map (Char.ofNat n :: ·)

def readString? (s : List Char) : Option (String × List Char) := do
  let (units,rest) ← readUnits? s
  return (String.ofList (← joinHalves? units),rest)

/-- Digits without a zero in front, then a point and digits, if any, then an exponent, if any. -/
def isMagnitude (s : List Char) : Bool :=
  let whole := s.takeWhile Binary64.isDigit
  let exponent :=
    match s.dropWhile Binary64.isDigit with
    | '.' :: c :: rest => if Binary64.isDigit c then some (rest.dropWhile Binary64.isDigit) else none
    | rest => some rest
  !whole.isEmpty && (whole.head? != some '0' || whole.length = 1) &&
    (exponent.bind Binary64.readExponent?).isSome

def readNumber? (s : List Char) : Option Json :=
  let negative := s.head? = some '-'
  let magnitude := if negative then s.drop 1 else s
  let n := Binary64.digitsValue magnitude
  let fits := if negative then 0 < n && n ≤ Nat.pow 2 63 else n < Nat.pow 2 64
  if !isMagnitude magnitude then none
  else if magnitude.all Binary64.isDigit && fits then some (.integer (if negative then -(n : Int) else n))
  else (Binary64.read s).toOption.map .real

def isNumeric (c : Char) : Bool := Binary64.isDigit c || "+-.eE".toList.contains c

def keyword? (word : String) (j : Json) (s : List Char) : Option (Json × List Char) :=
  if word.toList.isPrefixOf s then some (j,s.drop word.length) else none

mutual

def readValue? : Nat → List Char → Option (Json × List Char)
  | 0, _ => none
  | fuel + 1, s =>
    match skipSpace s with
    | '"' :: rest => (readString? rest).map fun (s,rest) => (.string s,rest)
    | '[' :: rest =>
      match skipSpace rest with
      | ']' :: rest => some (.array [],rest)
      | rest => (readItems? fuel rest).map fun (items,rest) => (.array items,rest)
    | '\x7b' :: rest =>
      match skipSpace rest with
      | '\x7d' :: rest => some (.object [],rest)
      | rest => (readFields? fuel rest).map fun (fields,rest) => (.object fields,rest)
    | s =>
      keyword? "null" .null s <|> keyword? "true" (.bool true) s <|> keyword? "false" (.bool false) s <|>
        (readNumber? (s.takeWhile isNumeric)).map fun j => (j,s.dropWhile isNumeric)

def readItems? : Nat → List Char → Option (List Json × List Char)
  | 0, _ => none
  | fuel + 1, s => do
    let (j,rest) ← readValue? fuel s
    match skipSpace rest with
    | ',' :: rest =>
      let (items,rest) ← readItems? fuel rest
      return (j :: items,rest)
    | ']' :: rest => return ([j],rest)
    | _ => none

def readFields? : Nat → List Char → Option (List (String × Json) × List Char)
  | 0, _ => none
  | fuel + 1, s =>
    match skipSpace s with
    | '"' :: rest => do
      let (name,rest) ← readString? rest
      match skipSpace rest with
      | ':' :: rest =>
        let (j,rest) ← readValue? fuel rest
        match skipSpace rest with
        | ',' :: rest =>
          let (fields,rest) ← readFields? fuel rest
          return ((name,j) :: fields,rest)
        | '\x7d' :: rest => return ([(name,j)],rest)
        | _ => none
      | _ => none
    | _ => none

end

/-- Reads a value with nothing but blanks around it. Every second step takes a character off the text. -/
def read? (text : String) : Option Json :=
  match readValue? (2 * text.length + 2) text.toList with
  | some (j,rest) => if (skipSpace rest).isEmpty then some j else none
  | none => none

end TraceEngine.Json
