import TraceEngine.Uri.Percent

/-!
Paths as lists of segments. Segments of one or two dots are resolved while the path is read. Tabs and line
ends are no part of a segment, but one of them can part a drive from the text after it.
-/
namespace TraceEngine.Uri

def isIgnored (c : Char) : Bool := c = '\t' || c = '\n' || c = '\r'

def kept (s : List Char) : List Char := s.filter (!isIgnored ·)

theorem kept_of_all_not {s : List Char} (h : ∀ c ∈ s, isIgnored c = false) : kept s = s := by
  simpa [kept,List.filter_eq_self] using h

def lowered (s : List Char) : List Char := s.map Char.toLower

def isSingleDot (s : List Char) : Bool := s = ['.'] || lowered s = "%2e".toList

def isDoubleDot (s : List Char) : Bool :=
  s = ['.','.'] || lowered s = ".%2e".toList || lowered s = "%2e.".toList || lowered s = "%2e%2e".toList

/-- A letter and a colon or a bar, and nothing else. -/
def isDrive : List Char → Bool
  | [letter,mark] => letter.isAlpha && (mark = ':' || mark = '|')
  | _ => false

def startsWithDrive (s : List Char) : Bool :=
  isDrive (s.take 2) && (s.length = 2 || (s.drop 2).head? = some '\\')

/-- Without its last segment, unless that is a drive. -/
def dropSegment (path : List (List Char)) : List (List Char) :=
  match path.getLast? with
  | some last => if startsWithDrive last then path else path.dropLast
  | none => path

/-- A letter and a colon that tabs or line ends part from more text: the drive, and that text. -/
def partedDrive? (s : List Char) : Option (List Char × List Char) :=
  match s.dropWhile isIgnored with
  | letter :: rest =>
    match rest.dropWhile isIgnored with
    | ':' :: rest =>
      if letter.isAlpha && rest.head?.any isIgnored && !(kept rest).isEmpty then
        some ([letter,':'],kept rest)
      else none
    | _ => none
  | [] => none

def isDots (s : List Char) : Bool := isSingleDot (kept s) || isDoubleDot (kept s)

/-- The path after one more segment. A parted drive in the first place is two segments, and the second of
them is not resolved. -/
def addSegment (path : List (List Char)) (s : List Char) : List (List Char) :=
  if isDoubleDot (kept s) then dropSegment path
  else if isSingleDot (kept s) then path
  else
    match path, partedDrive? s with
    | [], some (drive,rest) => [drive,percentEncode isPathEncoded rest]
    | path, _ => path ++ [percentEncode isPathEncoded (kept s)]

/-- Adds the segments to a path. Where a path of dots ends, an empty segment is left. -/
def addSegments (path : List (List Char)) : List (List Char) → List (List Char)
  | [] => path
  | s :: rest => addSegments (addSegment path s ++ if rest.isEmpty && isDots s then [[]] else []) rest

/-- A drive that is a segment of its own comes to stand in the first place of the path. -/
def meetsDrive (path : List (List Char)) : List (List Char) → Bool
  | [] => false
  | s :: rest =>
    (path.isEmpty && isDrive (kept s)) || meetsDrive (addSegment path s) rest

def pathText (path : List (List Char)) : List Char := path.flatMap ('/' :: ·)

end TraceEngine.Uri
