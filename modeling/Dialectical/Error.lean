import Dialectical.Formula

/-!
# What can go wrong

Two kinds of failure, kept apart because they are answered differently.

* A `Refusal` says that data given from outside is not acceptable: an unknown label, an argument
  without a condition, a connective between two identical formulas. Nothing has changed when a
  refusal is returned.
* A `Fault` says that a precondition of an operation was broken, or that a SAT solver gave up.
  What the operation did before the fault stays done.

Both are inductive types of causes; the wording is in `Refusal.message` and `Fault.message` only.
-/

namespace Dialectical

/-- Data that is not acceptable. -/
inductive Refusal where
  /-- A checked binary connective got the same formula twice. -/
  | identicalOperands (op : Connective) (operand : Condition)
  /-- A label that was never declared. -/
  | noSuchLabel (label : String)
  /-- The condition of this label cannot be set, for the given reason. -/
  | settingCondition (label : String) (cause : Refusal)
  /-- A declared argument has no condition. -/
  | noCondition (label : String)
  /-- The condition of this label speaks of an argument that was never declared. -/
  | undefinedArgument (label : String) (argument : Nat)
  /-- A text that is not the name of a semantics. -/
  | undefinedSemantics (text : String)
  deriving DecidableEq, Repr

/-- The text of a refusal; a cause follows what it prevents. -/
def Refusal.message : Refusal → String
  | identicalOperands op operand =>
    "cannot build " ++ op.noun ++ " with identical operands " ++ operand.text
  | noSuchLabel label => "no such label: " ++ label
  | settingCondition label cause =>
    "while setting the acceptance condition of " ++ label ++ ": " ++ cause.message
  | noCondition label => "no acceptance condition for " ++ label
  | undefinedArgument label argument =>
    "the acceptance condition of " ++ label ++ " refers to the undefined argument #"
      ++ toString argument
  | undefinedSemantics text => "undefined semantics \"" ++ text ++ "\""

/-- A broken precondition, or a solver that gave up. -/
inductive Fault where
  /-- Variables are numbered from one. -/
  | zeroVariable
  /-- Zero ends a clause and is no literal. -/
  | zeroLiteral
  /-- A definite answer was needed where the solver gave none. -/
  | unknownAnswer
  /-- A solver session was used after it was closed. -/
  | closedSession
  /-- A generator was used after it was closed. -/
  | closedGenerator
  /-- A verifier was used after it was closed. -/
  | closedVerifier
  /-- An interpretation has not one status per argument of the framework. -/
  | sizesDiffer
  /-- A link atom was asked for a pair of arguments that is not a link. -/
  | noSuchLink (parent child : Nat)
  /-- The type of a link was needed and is not among the types given. -/
  | untypedLink
  /-- An index is not below the size of what it points into. -/
  | outOfBounds (size index : Nat)
  /-- A solver gave more models than there are interpretations, so one that was excluded came
  back. -/
  | excludedModel
  deriving DecidableEq, Repr

/-- The text of a fault. -/
def Fault.message : Fault → String
  | zeroVariable => "cannot build a variable from 0"
  | zeroLiteral => "cannot build a literal from 0"
  | unknownAnswer => "cannot unwrap solving result when the solver returned \"Unknown\""
  | closedSession => "cannot use a closed SAT solver state"
  | closedGenerator => "cannot use a closed candidate generator"
  | closedVerifier => "cannot use a closed verifier"
  | sizesDiffer => "interpretation and framework sizes differ"
  | noSuchLink parent child =>
    "no such link: (" ++ toString parent ++ ", " ++ toString child ++ ")"
  | untypedLink => "no entry found for key"
  | outOfBounds size index =>
    "index out of bounds: the len is " ++ toString size ++ " but the index is " ++ toString index
  | excludedModel => "the SAT solver returned a model that its clauses exclude"

/-- The element of a list at an index, or the fault that there is none. -/
def Fault.lookup {α : Type} (xs : List α) (i : Nat) : Except Fault α :=
  match xs[i]? with
  | some x => .ok x
  | none => .error (.outOfBounds xs.length i)

/-- A binary connective between two **different** conditions. -/
def Condition.joined (op : Connective) (c d : Condition) : Except Refusal Condition :=
  if c = d then .error (.identicalOperands op c) else .ok (.binary op c d)

end Dialectical
