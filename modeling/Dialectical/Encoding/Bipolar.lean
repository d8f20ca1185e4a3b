import Dialectical.Atoms
import Dialectical.LinkType

/-!
# Worst cases of undecided parents

An admissible interpretation gives its decided arguments their values **whatever** its undecided
arguments become. Against one parent at a time the worst case is known if the link has a type: the
atom of a supporting link must be false, and that of an attacking link true, for a child that is
satisfied and whose parent is not. Parents whose links have no such type are enumerated, all of
their values at once, as long as an argument has at most `k` of them.

Added to the encoding of conflict-freeness, these clauses exclude no admissible interpretation, and
they exclude all others if no argument has more than `k` dependent parents.
-/

namespace Dialectical

/-- How many dependent parents of an argument are enumerated unless another bound is given. -/
def defaultBound : Nat := 2

/-- The ways to give truth values to some arguments, in lexicographic order with false first.

This stands for `cart_prod` of the external library `permutator`, called with the two values as the
domain of each argument. What is relied on is that each way to give the arguments values comes, and
comes once (`mem_valuesOver`, `nodup_valuesOver`); what the clauses say does not depend on the
order. -/
def valuesOver : List Nat → List (List (Nat × Bool))
  | [] => [[]]
  | a :: as => [false, true].flatMap fun b ↦ (valuesOver as).map ((a, b) :: ·)

namespace Setting

/-- The clauses that put the atom of a link of a known type into its worst case for a decided child
while the parent does not have the value that helps. -/
def worstCase (S : Setting) (parent child : Nat) (link : Variable) : LinkType → List Clause
  | .attacking =>
    [[(S.atoms.satisfied child).neg, (S.atoms.unsatisfied parent).pos, link.pos],
      [(S.atoms.unsatisfied child).neg, (S.atoms.satisfied parent).pos, link.neg]]
  | .supporting =>
    [[(S.atoms.satisfied child).neg, (S.atoms.satisfied parent).pos, link.neg],
      [(S.atoms.unsatisfied child).neg, (S.atoms.unsatisfied parent).pos, link.pos]]
  | .redundant => []
  | .dependent => []

/-- Puts the links from the parents with a typed link into their worst cases, and returns the
parents that are left. -/
def worstCases (S : Setting) (types : LinkTypes) (child : Nat) : List Nat → Encoder (List Nat)
  | [] => pure []
  | parent :: rest => do
    match types.lookup ⟨parent, child⟩ with
    | none => throw .untypedLink
    | some .dependent => return parent :: (← S.worstCases types child rest)
    | some type =>
      Encoder.clauses
        (S.worstCase parent child (← Encoder.ofExcept (S.atoms.link parent child)) type)
      S.worstCases types child rest

/-- The clauses for one choice of values of the dependent parents: unless a parent is decided
otherwise, the condition with these values has the value of the child if the child is decided. -/
def enumerated (S : Setting) (child : Nat) (values : List (Nat × Bool)) : Encoder Unit := do
  let c := (S.framework.condition child).substitute fun a ↦ values.lookup a
  let φ ← Encoder.ofExcept (c.traverse fun r ↦ Variable.pos <$> S.atoms.link r child)
  let acceptance ← φ.named .both
  let otherwise := values.map fun
    | (r, true) => (S.atoms.unsatisfied r).pos
    | (r, false) => (S.atoms.satisfied r).pos
  Encoder.clause ((S.atoms.satisfied child).neg :: acceptance :: otherwise)
  Encoder.clause ((S.atoms.unsatisfied child).neg :: acceptance.negate :: otherwise)

/-- The clauses for one argument. Returns the number of its parents with a typed link, and whether
its other parents were enumerated. -/
def bipolarAt (S : Setting) (types : LinkTypes) (k child : Nat) : Encoder (Nat × Bool) := do
  let parents := S.framework.parents child
  let dependent ← S.worstCases types child parents
  let bipolar := parents.length - dependent.length
  if dependent.isEmpty || k < dependent.length then
    return (bipolar, false)
  else
    (valuesOver dependent).forM (S.enumerated child)
    return (bipolar, true)

/-- The clauses for all arguments. Returns how many links have a type, and of how many arguments the
other parents were enumerated. -/
def bipolar (S : Setting) (types : LinkTypes) (k : Nat) : Encoder (Nat × Nat) := do
  let counts ← S.framework.arguments.mapM (S.bipolarAt types k)
  return (counts.foldl (fun n p ↦ n + p.1) 0, counts.countP (·.2))

/-- Adds the clauses for all arguments to a session. -/
def addBipolar (S : Setting) (types : LinkTypes) (k : Nat) : Act Session Unit := do
  let (links, arguments) ← Session.perform (S.bipolar types k)
  Act.log .debug .bipolarEncoding
    ("k-bipolar encoding handled " ++ toString links
      ++ " bipolar links and enumerated the dependent parents of " ++ toString arguments
      ++ " arguments")

end Setting

end Dialectical
