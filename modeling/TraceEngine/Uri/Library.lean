import TraceEngine.Text.Natural

/-!
Libraries that read addresses: what can be wrong with an address, the parts of one, and what a library does with it.
-/
namespace TraceEngine.Uri

inductive Fault
  | noScheme
  | emptyHost
  | badPort
  | badFourByteAddress
  | badPieceAddress
  | badHostCharacter
  | badDomainName
  deriving DecidableEq, Repr

def Fault.message : Fault → String
  | noScheme => "relative URL without a base"
  | emptyHost => "empty host"
  | badPort => "invalid port number"
  | badFourByteAddress => "invalid IPv4 address"
  | badPieceAddress => "invalid IPv6 address"
  | badHostCharacter => "invalid domain character"
  | badDomainName => "invalid international domain name"

structure Parts where
  scheme : List Char
  username : List Char := []
  password : Option (List Char) := none
  host : Option (List Char)
  port : Option Nat := none
  path : List Char := []
  query : Option (List Char) := none
  fragment : Option (List Char) := none
  deriving DecidableEq, Repr

namespace Parts

def hasHost (p : Parts) : Bool := p.host.any (!·.isEmpty)

/-- A part that may be absent, with the character that leads it in. -/
def ledBy (mark : Char) (part : Option (List Char)) : List Char := (part.map (mark :: ·)).getD []

def credentialsText (p : Parts) : List Char :=
  if p.username.isEmpty && p.password.isNone then [] else p.username ++ ledBy ':' p.password ++ ['@']

def authorityText (p : Parts) : List Char :=
  p.credentialsText ++ p.host.getD [] ++ ledBy ':' (p.port.map Text.decimal)

/-- How an address that has a host is written. -/
def text (p : Parts) : List Char :=
  p.scheme ++ "://".toList ++ p.authorityText ++ p.path ++ ledBy '?' p.query ++ ledBy '#' p.fragment

end Parts

/-- What is used of a library. A user name and a password are not taken out of every address. -/
structure Library (α : Type) where
  parse : String → Except Fault α
  text : α → String
  parts : α → Parts
  withoutUsername? : α → Option α
  withoutPassword? : α → Option α
  withoutQuery : α → α
  withoutFragment : α → α

/-- Takes out of an address all that must not leave the process. That credentials are not taken out is no fault. -/
def Library.cleared {α : Type} (L : Library α) (u : α) : α :=
  let u := (L.withoutUsername? u).getD u
  let u := (L.withoutPassword? u).getD u
  L.withoutFragment (L.withoutQuery u)

end TraceEngine.Uri
