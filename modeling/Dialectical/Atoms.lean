import Dialectical.Framework
import Dialectical.Sat.Clause

/-!
# The atoms of a framework

Each argument has two atoms, one for "satisfied" and one for "unsatisfied"; an argument with
neither is undecided. Each link has an atom for the value of its parent **as its child sees it**,
so that an undecided parent may look different to different children. The argument atoms come
first, two by two, and the link atoms follow in the order of the links.

A `Setting` is a framework with the atoms that stand for its arguments and links. They are kept
apart because a reduct is reasoned about with the atoms of the framework it comes from.
-/

namespace Dialectical

/-- The atoms of a number of arguments and a list of links. -/
structure Atoms where
  /-- The number of arguments. -/
  size : Nat
  /-- The links that have an atom. -/
  links : List Link
  deriving DecidableEq, Repr

namespace Atoms

/-- The atoms of a framework. -/
def of (F : Framework) : Atoms := ⟨F.size, F.links⟩

/-- The number of atoms. -/
def count (A : Atoms) : Nat := 2 * A.size + A.links.length

/-- The atom that says that an argument is satisfied. -/
def satisfied (_ : Atoms) (a : Nat) : Variable := 2 * a

/-- The atom that says that an argument is unsatisfied. -/
def unsatisfied (_ : Atoms) (a : Nat) : Variable := 2 * a + 1

/-- The atom of a link, if the pair is one. -/
def link? (A : Atoms) (parent child : Nat) : Option Variable :=
  (A.links.idxOf? ⟨parent, child⟩).map (2 * A.size + ·)

/-- The atom of a link; it is a fault to ask for a pair that is not a link. -/
def link (A : Atoms) (parent child : Nat) : Except Fault Variable :=
  match A.link? parent child with
  | some v => .ok v
  | none => .error (.noSuchLink parent child)

/-- The two atoms of every argument. -/
def ofArguments (A : Atoms) : List Variable :=
  (List.range A.size).flatMap fun a ↦ [A.satisfied a, A.unsatisfied a]

/-- The argument an atom belongs to, with the truth value the atom gives it. Link atoms and other
variables belong to no argument. -/
def argument? (A : Atoms) (v : Variable) : Option (Nat × Bool) :=
  if v < 2 * A.size then some (v / 2, v % 2 == 0) else none

/-- The interpretation that some true variables stand for. Variables that belong to no argument are
passed over; of two atoms of one argument the later one counts. -/
def interpretation (A : Atoms) (vs : List Variable) : Interpretation :=
  vs.foldl (fun I v ↦
    match A.argument? v with
    | some (a, b) => I.set a (.ofBool b)
    | none => I) (.blank A.size)

end Atoms

/-- A framework with atoms for its arguments and links. -/
structure Setting where
  framework : Framework
  atoms : Atoms

namespace Setting

/-- A framework with its own atoms. -/
def of (F : Framework) : Setting := ⟨F, .of F⟩

/-- The condition of an argument over the link atoms that its parents have for it. -/
def linked (S : Setting) (a : Nat) : Except Fault (Formula Literal) :=
  (S.framework.condition a).traverse fun r ↦ Variable.pos <$> S.atoms.link r a

end Setting

end Dialectical
