import TraceEngine.Uri.Library
import TraceEngine.Uri.Percent

/-!
Hosts: names, addresses of four bytes, and addresses of eight pieces in square brackets.
-/
namespace TraceEngine.Uri

open Text

inductive Host
  | name (text : List Char)
  | bytes (value : Nat)
  | pieces (values : List Nat)
  deriving DecidableEq, Repr

def isDigitOf (base : Nat) (c : Char) : Bool :=
  match hexValue? c with
  | some n => decide (n < base)
  | none => false

/-- A number in hexadecimal after `0x`, in octal after another zero, else in decimal. The bare mark of a
base is zero. -/
def addressNumber? (s : List Char) : Option Nat :=
  let (base,digits) : Nat × List Char :=
    match s with
    | '0' :: 'x' :: rest => (16,rest)
    | '0' :: 'X' :: rest => (16,rest)
    | '0' :: c :: rest => (8,c :: rest)
    | s => (10,s)
  if s.isEmpty || !digits.all (isDigitOf base) then none
  else some (digits.foldl (fun n c => base * n + (hexValue? c).getD 0) 0)

/-- The last label of a name, not counting an empty one after a final point, is a number. -/
def endsInNumber (s : List Char) : Bool :=
  let last? :=
    match (s.splitOn '.').reverse with
    | [] :: label :: _ => some label
    | [] :: [] => none
    | label :: _ => some label
    | [] => none
  match last? with
  | none => false
  | some label => (!label.isEmpty && label.all (isDigitOf 10)) || (addressNumber? label).isSome

/-- The last number fills all the bytes that the numbers before it leave. -/
def combineNumbers? (numbers : List Nat) : Option Nat :=
  match numbers.reverse with
  | [] => none
  | last :: before =>
    let filled := before.length
    if filled < 4 ∧ last < Nat.pow 256 (4 - filled) ∧ before.all (· < 256) then
      some (before.reverse.foldl (256 * · + ·) 0 * Nat.pow 256 (4 - filled) + last)
    else none

def readBytes? (s : List Char) : Option Nat :=
  let labels := s.splitOn '.'
  let labels := if labels.getLast? = some [] then labels.dropLast else labels
  (labels.mapM addressNumber?).bind combineNumbers?

def bytesText (value : Nat) : List Char :=
  ['.'].intercalate ([24,16,8,0].map fun shift => decimal (value / Nat.pow 2 shift % 256))

def readByte? (s : List Char) : Option Nat :=
  if s.isEmpty || !s.all (isDigitOf 10) || (s.head? = some '0' && s.length != 1) then none
  else
    let n := s.foldl (fun n c => 10 * n + (hexValue? c).getD 0) 0
    if n < 256 then some n else none

def readBytesAsPieces? (s : List Char) : Option (List Nat) :=
  match (s.splitOn '.').mapM readByte? with
  | some [a,b,c,d] => some [256 * a + b,256 * c + d]
  | _ => none

/-- Reads on after the pieces before. A pair of colons stands for one or more zero pieces, once; the number of
pieces up to and with the first of them is kept. -/
def readPieces? (gap : Option Nat) (before : List Nat) (s : List Char) : Option (Option Nat × List Nat) :=
  match _h : s with
  | [] => some (gap,before)
  | c :: rest =>
    if before.length = 8 then none
    else if c = ':' then
      if gap.isSome then none else readPieces? (some (before.length + 1)) (before ++ [0]) rest
    else
      let digits := (s.take 4).takeWhile (isDigitOf 16)
      let value := (hexNumber? digits).getD 0
      match _hd : s.drop digits.length with
      | [] => some (gap,before ++ [value])
      | '.' :: _ =>
        if digits.isEmpty || 6 < before.length then none
        else (readBytesAsPieces? s).map fun two => (gap,before ++ two)
      | ':' :: more => if more.isEmpty then none else readPieces? gap (before ++ [value]) more
      | _ => none
termination_by s.length
decreasing_by
  · simp
  · have hl : (List.drop digits.length s).length = more.length + 1 := by rw [_hd]; rfl
    have hs : s.length = rest.length + 1 := by rw [_h]; rfl
    simp only [List.length_drop] at hl
    simp only [List.length_cons]
    omega

def readPieceAddress? (s : List Char) : Option (List Nat) :=
  let read :=
    match s with
    | ':' :: ':' :: rest => readPieces? (some 1) [0] rest
    | ':' :: _ => none
    | s => readPieces? none [] s
  match read with
  | some (none,pieces) => if pieces.length = 8 then some pieces else none
  | some (some gap,pieces) =>
    if pieces.length ≤ 8 then
      some (pieces.take gap ++ List.replicate (8 - pieces.length) 0 ++ pieces.drop gap)
    else none
  | none => none

def zeroRuns : List Nat → List Nat
  | [] => []
  | p :: rest =>
    let runs := zeroRuns rest
    (if p = 0 then runs.headD 0 + 1 else 0) :: runs

/-- The first of the longest runs of at least two zeros is written as a pair of colons. -/
def piecesText (pieces : List Nat) : List Char :=
  let runs := zeroRuns pieces
  let longest := runs.foldl max 0
  let joined (ps : List Nat) : List Char := [':'].intercalate (ps.map hex)
  if longest < 2 then joined pieces
  else
    let start := runs.idxOf longest
    joined (pieces.take start) ++ [':',':'] ++ joined (pieces.drop (start + longest))

def readBracketed (s : List Char) : Except Fault Host :=
  if s.getLast? = some ']' then
    match readPieceAddress? (s.drop 1).dropLast with
    | some pieces => .ok (.pieces pieces)
    | none => .error .badPieceAddress
  else .error .badPieceAddress

def isForbiddenInName (n : Nat) : Bool :=
  decide (n ≤ 0x20 ∨ 0x7f ≤ n) || ("%#/:<>?@[\\]^|".toList.map Char.toNat).contains n

/-- A host of the well-known schemes: percent signs are decoded, letters lowered, and what ends in a number
is an address. -/
def readName (s : List Char) : Except Fault Host :=
  match s with
  | [] => .error .emptyHost
  | '[' :: _ => readBracketed s
  | s =>
    let decoded := percentDecode s
    if decoded.any isForbiddenInName then .error .badDomainName
    else
      let name := decoded.map fun n => (Char.ofNat n).toLower
      if endsInNumber name then
        match readBytes? name with
        | some value => .ok (.bytes value)
        | none => .error .badFourByteAddress
      else .ok (.name name)

def isForbiddenInOther (c : Char) : Bool := "\x00\t\n\r #/:<>?@[\\]^|".toList.contains c

/-- A host of any other scheme is kept as it is written, with the controls encoded. -/
def readOther (s : List Char) : Except Fault Host :=
  match s with
  | '[' :: _ => readBracketed s
  | s => if s.any isForbiddenInOther then .error .badHostCharacter else .ok (.name (percentEncode isControl s))

def Host.text : Host → List Char
  | name text => text
  | bytes value => bytesText value
  | pieces values => '[' :: piecesText values ++ [']']

def Host.isEmpty (h : Host) : Bool := decide (h = .name [])

end TraceEngine.Uri
