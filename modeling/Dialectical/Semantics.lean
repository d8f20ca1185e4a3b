import Dialectical.Error

/-!
# Semantics

The semantics under which a framework has models, with their names.
-/

namespace Dialectical

/-- The semantics of frameworks. -/
inductive Semantics where
  | conflictFree
  /-- The maximal conflict-free interpretations. -/
  | naive
  | admissible
  | complete
  /-- The maximal admissible interpretations. -/
  | preferred
  | stable
  /-- The two-valued models. -/
  | twoValued
  | ground
  deriving DecidableEq, Repr

namespace Semantics

/-- All semantics, in their usual order. -/
def all : List Semantics :=
  [conflictFree, naive, admissible, complete, preferred, stable, twoValued, ground]

/-- The usual short name of a semantics. -/
def shortName : Semantics → String
  | conflictFree => "cf"
  | naive => "nai"
  | admissible => "adm"
  | complete => "com"
  | preferred => "prf"
  | stable => "stb"
  | twoValued => "mod"
  | ground => "grd"

/-- The long name of a semantics. -/
def longName : Semantics → String
  | conflictFree => "ConflictFree"
  | naive => "Naive"
  | admissible => "Admissible"
  | complete => "Complete"
  | preferred => "Preferred"
  | stable => "Stable"
  | twoValued => "Model"
  | ground => "Ground"

/-- The semantics with a short name, in letters of either case. Only the letters from A to Z have a
case here. -/
def ofName (name : String) : Except Refusal Semantics :=
  match all.find? (·.shortName == name.toLower) with
  | some s => .ok s
  | none => .error (.undefinedSemantics name)

theorem mem_all (s : Semantics) : s ∈ all := by
  cases s <;> decide

end Semantics

end Dialectical
