/-!
Log records, the levels that filter them, computations that write records, and recorders that keep them.
-/
namespace TraceEngine

/-- How grave a record is, gravest first. -/
inductive Level
  | error
  | warn
  | info
  | debug
  deriving DecidableEq, Repr

/-- The least grave level that is printed. -/
inductive LevelFilter
  | off
  | error
  | warn
  | info
  | debug
  deriving DecidableEq, Repr

def Level.rank : Level → Nat
  | .error => 1
  | .warn => 2
  | .info => 3
  | .debug => 4

def LevelFilter.rank : LevelFilter → Nat
  | .off => 0
  | .error => 1
  | .warn => 2
  | .info => 3
  | .debug => 4

def Level.name : Level → String
  | .error => "ERROR"
  | .warn => "WARN"
  | .info => "INFO"
  | .debug => "DEBUG"

def LevelFilter.name : LevelFilter → String
  | .off => "OFF"
  | .error => "ERROR"
  | .warn => "WARN"
  | .info => "INFO"
  | .debug => "DEBUG"

/-- A level beside the one that a filter names. -/
def Level.compareFilter (l : Level) (f : LevelFilter) : Ordering := compare l.rank f.rank

inductive LevelFilterFault
  | unknownName
  deriving DecidableEq, Repr

def LevelFilterFault.message : LevelFilterFault → String
  | .unknownName => "log level filter should be one of DEBUG, INFO, WARN, ERROR, OFF"

def LevelFilter.read (s : String) : Except LevelFilterFault LevelFilter :=
  match String.ofList (s.toList.map Char.toLower) with
  | "debug" => .ok .debug
  | "info" => .ok .info
  | "warn" => .ok .warn
  | "error" => .ok .error
  | "off" => .ok .off
  | _ => .error .unknownName

structure LogRecord where
  level : Level
  message : String
  deriving DecidableEq, Repr

/-- A value together with the records written on the way to it, in order. -/
structure Logged (α : Type) where
  value : α
  records : List LogRecord := []

namespace Logged

def write (level : Level) (message : String) : Logged Unit := ⟨(),[⟨level,message⟩]⟩

instance : Monad Logged where
  pure a := ⟨a,[]⟩
  bind x f :=
    let y := f x.value
    ⟨y.value,x.records ++ y.records⟩

@[simp] theorem value_pure {α : Type} (a : α) : (pure a : Logged α).value = a := rfl

@[simp] theorem records_pure {α : Type} (a : α) : (pure a : Logged α).records = [] := rfl

@[simp] theorem value_bind {α β : Type} (x : Logged α) (f : α → Logged β) :
    (x >>= f).value = (f x.value).value := rfl

@[simp] theorem records_bind {α β : Type} (x : Logged α) (f : α → Logged β) :
    (x >>= f).records = x.records ++ (f x.value).records := rfl

end Logged

/-- Records are kept by the innermost active capture. Those of the captures around it wait until it ends. -/
structure Recorder where
  maxLevel : LevelFilter := .error
  captures : List (List LogRecord) := []

namespace Recorder

def activate (r : Recorder) : Recorder := { r with captures := [] :: r.captures }

def deactivate (r : Recorder) : Recorder := { r with captures := r.captures.tail }

def keep (r : Recorder) (records : List LogRecord) : Recorder :=
  match r.captures with
  | [] => r
  | innermost :: outer => { r with captures := (innermost ++ records) :: outer }

/-- Hands over what the innermost capture has kept and empties it. -/
def take (r : Recorder) : Option (List LogRecord) × Recorder :=
  match r.captures with
  | [] => (none,r)
  | innermost :: outer => (some innermost,{ r with captures := [] :: outer })

end Recorder

end TraceEngine
