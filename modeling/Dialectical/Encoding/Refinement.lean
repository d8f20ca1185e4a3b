import Dialectical.Atoms

/-!
# Clauses about a given interpretation

Clauses over the argument atoms that place the interpretation a model stands for relative to a given
one. All searches of the library narrow down their candidates by these.

* `Atoms.differs I`: it is not `I`.
* `Atoms.exceeds I`: it is not `I`, and nothing less informative than `I`.
* `Atoms.extending I`: it is strictly more informative than `I`.
* `Atoms.fixing I`: it decides as `I` does what `I` decides.
-/

namespace Dialectical.Atoms

/-- The literals that say that an argument is decided. -/
def decided (A : Atoms) (a : Nat) : List Literal :=
  [(A.satisfied a).pos, (A.unsatisfied a).pos]

/-- The clause that excludes exactly one interpretation: a satisfied argument is no longer
satisfied, an unsatisfied one is no longer unsatisfied, or an undecided one is decided. -/
def differs (A : Atoms) (I : Interpretation) : Clause :=
  I.entries.flatMap fun
    | (a, .satisfied) => [(A.satisfied a).neg]
    | (a, .unsatisfied) => [(A.unsatisfied a).neg]
    | (a, .undecided) => A.decided a

/-- The clause that excludes an interpretation and all that are less informative: a satisfied
argument becomes unsatisfied, an unsatisfied one becomes satisfied, or an undecided one is decided.
-/
def exceeds (A : Atoms) (I : Interpretation) : Clause :=
  I.entries.flatMap fun
    | (a, .satisfied) => [(A.unsatisfied a).pos]
    | (a, .unsatisfied) => [(A.satisfied a).pos]
    | (a, .undecided) => A.decided a

/-- The clauses that leave the strictly more informative interpretations: what is decided is fixed,
and one of the undecided arguments becomes decided, though not both ways. -/
def extending (A : Atoms) (I : Interpretation) : List Clause :=
  (I.entries.map fun
    | (a, .satisfied) => [(A.satisfied a).pos]
    | (a, .unsatisfied) => [(A.unsatisfied a).pos]
    | (a, .undecided) => [(A.satisfied a).neg, (A.unsatisfied a).neg]) ++
  [I.undecided.flatMap A.decided]

/-- The literals that fix what an interpretation decides. -/
def fixing (A : Atoms) (I : Interpretation) : List Literal :=
  I.entries.filterMap fun
    | (a, .satisfied) => some (A.satisfied a).pos
    | (a, .unsatisfied) => some (A.unsatisfied a).pos
    | (_, .undecided) => none

end Dialectical.Atoms
