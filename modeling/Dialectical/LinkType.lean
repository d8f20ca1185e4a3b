import Dialectical.Encoding.Naming
import Dialectical.Formula.Substitution
import Dialectical.Framework
import Dialectical.Sat.Session

/-!
# Types of links

A link is supporting if making its parent true never makes the condition of its child false, and
attacking if it never makes it true. A link may be both (the parent does not matter) or neither.

Whether a link is supporting is a question about two instances of one formula, with the parent false
and with the parent true: it is unsatisfiable that the first is true and the second is false.
`Framework.linkTypes` asks this, and the converse, of a SAT solver, one session per child.
-/

namespace Dialectical

/-- The types of links. -/
inductive LinkType where
  | supporting
  | attacking
  /-- Supporting and attacking: the parent makes no difference. -/
  | redundant
  /-- Neither supporting nor attacking. -/
  | dependent
  deriving DecidableEq, Repr

namespace LinkType

/-- Whether the link is supporting or attacking. -/
def isBipolar (t : LinkType) : Bool := t ≠ dependent

/-- Whether the link is supporting. -/
def isSupporting (t : LinkType) : Bool := t = supporting || t = redundant

/-- Whether the link is attacking. -/
def isAttacking (t : LinkType) : Bool := t = attacking || t = redundant

/-- The type of a link that is supporting, or attacking, as given. -/
def ofProperties : (isSupporting isAttacking : Bool) → LinkType
  | true, true => redundant
  | true, false => supporting
  | false, true => attacking
  | false, false => dependent

/-- The name of a type. -/
def name : LinkType → String
  | supporting => "Supporting"
  | attacking => "Attacking"
  | redundant => "Redundant"
  | dependent => "Dependent"

/-- The type with a name. -/
def ofName? (name : String) : Option LinkType :=
  [supporting, attacking, redundant, dependent].find? (·.name == name)

end LinkType

/-- Links with their types. -/
abbrev LinkTypes := List (Link × LinkType)

namespace Framework

/-- A condition with one argument replaced by a truth value, over variables that stand for the
arguments themselves. -/
def instanceOf (c : Condition) (a : Nat) (value : Bool) : Formula Literal :=
  (c.substitute fun b ↦ if b = a then some value else none).map Variable.pos

/-- The type of one link, in a session about its child. -/
def linkType (c : Condition) (parent child : Nat) : Act Session (Link × LinkType) := do
  let whenFalse ← Session.perform ((instanceOf c parent false).named .both)
  let whenTrue ← Session.perform ((instanceOf c parent true).named .both)
  Session.assume [whenFalse, whenTrue.negate]
  let isSupporting := !(← Session.satisfiable)
  Session.assume [whenTrue, whenFalse.negate]
  let isAttacking := !(← Session.satisfiable)
  let type := LinkType.ofProperties isSupporting isAttacking
  Act.log .trace .linkTypes
    ("link (" ++ toString parent ++ ", " ++ toString child ++ ") is " ++ type.name)
  return (⟨parent, child⟩, type)

/-- The types of the links to one child. An argument without parents needs no solver. -/
def linkTypesTo {σ : Type} (F : Framework) (child : Nat) : Act σ LinkTypes :=
  match F.parents child with
  | [] => pure []
  | parents =>
    Session.during F.size <| parents.mapM fun r ↦ linkType (F.condition child) r child

/-- The types of all links, in the order of the links. -/
def linkTypes {σ : Type} (F : Framework) : Act σ LinkTypes := do
  return (← F.arguments.mapM F.linkTypesTo).flatten

end Framework

end Dialectical
