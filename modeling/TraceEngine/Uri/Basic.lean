import TraceEngine.Text.Blank
import TraceEngine.Uri.Host
import TraceEngine.Uri.Path

/-!
Addresses of services that have a host: how they are read and written, and what is left when parts are taken out. They
make up a library that is like the one that the program uses.
-/
namespace TraceEngine

structure Uri where
  scheme : List Char
  username : List Char
  password : Option (List Char)
  host : Uri.Host
  port : Option Nat
  path : List (List Char)
  query : Option (List Char)
  fragment : Option (List Char)
  deriving DecidableEq, Repr

namespace Uri

open Text

/-- The schemes whose hosts are names of the network and whose backslashes count as slashes. -/
inductive SchemeKind
  | network
  | file
  | other
  deriving DecidableEq, Repr

def SchemeKind.of (scheme : List Char) : SchemeKind :=
  if scheme = "file".toList then .file
  else if ["http","https","ws","wss","ftp"].contains (String.ofList scheme) then .network
  else .other

def SchemeKind.backslashes (k : SchemeKind) : Bool := k != .other

def defaultPort (scheme : List Char) : Option Nat :=
  match String.ofList scheme with
  | "http" | "ws" => some 80
  | "https" | "wss" => some 443
  | "ftp" => some 21
  | _ => none

def stripped (s : List Char) : List Char := strip (fun c => decide (c.toNat ≤ 0x20)) s

def isSchemeChar (c : Char) : Bool := c.isAlphanum || c = '+' || c = '-' || c = '.'

/-- The scheme in lower case, and what follows the colon. -/
def readScheme? (s : List Char) : Option (List Char × List Char) :=
  let scheme := kept (s.takeWhile (· != ':'))
  match s.dropWhile (· != ':') with
  | _ :: rest =>
    if (scheme.headD ':').isAlpha && scheme.all isSchemeChar then some (lowered scheme,rest) else none
  | [] => none

/-- A character that ends the part of an address in front of the path. -/
def endsAuthority (k : SchemeKind) (c : Char) : Bool :=
  c = '/' || c = '?' || c = '#' || (k.backslashes && c = '\\')

def splitCredentials (authority : List Char) : List Char × List Char :=
  let host := (authority.reverse.takeWhile (· != '@')).reverse
  if authority.contains '@' then (authority.take (authority.length - host.length - 1),host) else ([],authority)

/-- User name and password. An empty password is as good as none. -/
def readCredentials (s : List Char) : List Char × Option (List Char) :=
  let password := (s.dropWhile (· != ':')).drop 1
  (percentEncode isCredentialEncoded (s.takeWhile (· != ':')),
    if password.isEmpty then none else some (percentEncode isCredentialEncoded password))

def isQueryEncoded (k : SchemeKind) (c : Char) : Bool :=
  isControl c || " \"#<>".toList.contains c || (k != .other && c = '\'')

/-- Up to the first colon outside of square brackets. -/
def splitPort : Bool → List Char → List Char × Option (List Char)
  | _, [] => ([],none)
  | bracketed, c :: rest =>
    if c = ':' && !bracketed then ([],some rest)
    else
      let (host,port) := splitPort (c = '[' || (bracketed && c != ']')) rest
      (c :: host,port)

/-- A port is digits; none is as good as the default. What follows the digits must be a backslash, with which
the path begins. -/
def readPort (default : Option Nat) (s : List Char) : Except Fault (Option Nat × List Char) :=
  let digits := s.takeWhile (isDigitOf 10)
  let rest := s.dropWhile (isDigitOf 10)
  let port := digits.foldl (fun n c => 10 * n + (hexValue? c).getD 0) 0
  if 65535 < port || rest.head?.any (· != '\\') then .error .badPort
  else .ok (if digits.isEmpty || default = some port then none else some port,rest)

def splitTail (s : List Char) : List Char × Option (List Char) × Option (List Char) :=
  let path := s.takeWhile fun c => c != '?' && c != '#'
  match s.dropWhile fun c => c != '?' && c != '#' with
  | '?' :: rest =>
    match rest.dropWhile (· != '#') with
    | _ :: fragment => (path,some (rest.takeWhile (· != '#')),some fragment)
    | [] => (path,some rest,none)
  | _ :: fragment => (path,none,some fragment)
  | [] => (path,none,none)

/-- The segments of a path, without the slash in front of the first. -/
def rawSegments (k : SchemeKind) (path : List Char) : List (List Char) :=
  let isSlash (c : Char) : Bool := c = '/' || (k.backslashes && c = '\\')
  let rest := if path.head?.any isSlash then path.drop 1 else path
  if path.isEmpty && k = .other then [] else rest.splitOnP isSlash

def readAuthority (k : SchemeKind) (scheme s : List Char) : Except Fault Uri := do
  let (credentials,authority) := splitCredentials (s.takeWhile (!endsAuthority k ·))
  let (username,password) := readCredentials credentials
  let (hostText,portText) := splitPort false authority
  let host ← if k = .other then readOther hostText else readName hostText
  if host.isEmpty then .error .emptyHost
  else
    let (port,beforePath) ← match portText with
      | some text => readPort (defaultPort scheme) text
      | none => pure (none,[])
    let (path,query,fragment) := splitTail (beforePath ++ s.dropWhile (!endsAuthority k ·))
    return ⟨scheme,username,password,host,port,addSegments [] (rawSegments k path),
      query.map (percentEncode (isQueryEncoded k)),fragment.map (percentEncode isFragmentEncoded)⟩

/-- Reads what follows the two slashes of a file address, with the tabs and line ends in it. It has no port,
and no host if it names the own machine or a drive. -/
def readFileHost (s : List Char) : Except Fault Uri := do
  let hostText := kept (s.takeWhile (!endsAuthority .file ·))
  if hostText.isEmpty || isDrive hostText then .error .emptyHost
  else
    let host ← readName hostText
    let (path,query,fragment) := splitTail (s.dropWhile (!endsAuthority .file ·))
    let segments := rawSegments .file path
    if host = .name "localhost".toList || meetsDrive [] segments then .error .emptyHost
    else
      let path := (addSegments [] segments).dropWhile (·.isEmpty)
      return ⟨"file".toList,[],none,host,none,if path.isEmpty then [[]] else path,
        query.map fun q => percentEncode (isQueryEncoded .file) (kept q),
        fragment.map fun f => percentEncode isFragmentEncoded (kept f)⟩

def afterSlash? (s : List Char) : Option (List Char) :=
  match s.dropWhile isIgnored with
  | c :: rest => if c = '/' || c = '\\' then some rest else none
  | [] => none

/-- Reads an address that has a host. -/
def read (text : String) : Except Fault Uri :=
  match readScheme? (stripped text.toList) with
  | none => .error .noScheme
  | some (scheme,rest) =>
    match SchemeKind.of scheme with
    | .network => readAuthority .network scheme ((kept rest).dropWhile fun c => c = '/' || c = '\\')
    | .file =>
      match (afterSlash? rest).bind afterSlash? with
      | some rest => readFileHost rest
      | none => .error .emptyHost
    | .other =>
      match kept rest with
      | '/' :: '/' :: rest => readAuthority .other scheme rest
      | _ => .error .emptyHost

def hostText (u : Uri) : String := String.ofList u.host.text

def parts (u : Uri) : Parts :=
  ⟨u.scheme,u.username,u.password,some u.host.text,u.port,pathText u.path,u.query,u.fragment⟩

def text (u : Uri) : String := String.ofList u.parts.text

/-- An address without a host and one of a file are said to have no credentials. -/
def mayHaveCredentials (u : Uri) : Bool := !(u.host.isEmpty || SchemeKind.of u.scheme = .file)

def withoutUsername? (u : Uri) : Option Uri := if u.mayHaveCredentials then some { u with username := [] } else none

def withoutPassword? (u : Uri) : Option Uri := if u.mayHaveCredentials then some { u with password := none } else none

/-- The library of addresses that have a host. -/
def library : Library Uri where
  parse := read
  text := text
  parts := parts
  withoutUsername? := withoutUsername?
  withoutPassword? := withoutPassword?
  withoutQuery u := { u with query := none }
  withoutFragment u := { u with fragment := none }

end Uri

end TraceEngine
