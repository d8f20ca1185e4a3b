import Dialectical.Journal

/-!
# Log lines on a console

How log records are written for people to read: one line each, with the level in colour. Nothing is
written before the console has a verbosity, and the one that is set first stays.
-/

namespace Dialectical

/-- How much is written. -/
inductive Verbosity where
  /-- Nothing at all. -/
  | off
  /-- Records of this level and of more severe ones. -/
  | upTo (level : Level)
  deriving DecidableEq, Repr

/-- Whether a record of a level is written. -/
def Verbosity.shows : Verbosity → Level → Bool
  | off, _ => false
  | upTo limit, level => level.passes limit

/-- A console, with its verbosity once that is set. -/
structure Console where
  verbosity : Option Verbosity := none
  deriving DecidableEq, Repr

namespace Console

/-- The verbosity of a console unless another one is asked for. -/
def defaultVerbosity : Verbosity := .upTo .info

/-- Sets the verbosity of a console, if it has none yet. -/
def init (c : Console) (verbosity : Verbosity) : Console :=
  match c.verbosity with
  | some _ => c
  | none => ⟨some verbosity⟩

/-- The number of the terminal colour of a level: red, yellow, cyan, magenta and white, in the order
of the levels. -/
def colour : Level → Nat
  | .error => 31
  | .warn => 33
  | .info => 36
  | .debug => 35
  | .trace => 37

/-- The name of a level, filled up with blanks to the length of the longest one. -/
def paddedName (l : Level) : String :=
  l.name ++ String.ofList (List.replicate (5 - l.name.length) ' ')

/-- The text of a record: its level, the time, where it comes from and what it says. -/
def line (time : String) (level : Level) (target message : String) : String :=
  "![\x1b[" ++ toString (colour level) ++ "m" ++ paddedName level ++ "\x1b[0m] [" ++ time ++ "] "
    ++ target ++ " " ++ message

/-- The lines that a console writes for a record. -/
def write (c : Console) (time : String) (level : Level) (target message : String) : List String :=
  match c.verbosity with
  | none => []
  | some verbosity =>
    if verbosity.shows level then (line time level target message).splitOn "\n" else []

end Console

end Dialectical
