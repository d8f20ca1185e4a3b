import Dialectical.Atoms
import Dialectical.Encoding.Naming

/-!
# Conflict-free interpretations and two-valued models

The encodings whose models are the interpretations that a generator starts from.

An interpretation is conflict-free if the condition of each decided argument **can** take the value
of the argument: some completion of the undecided arguments, which may differ from one condition to
the next, gives the condition this value. The link atoms are these completions; a decided argument
fixes the atoms of the links that leave it.
-/

namespace Dialectical.Setting

/-- The clauses for one argument: it is not satisfied and unsatisfied at once, its condition over
the link atoms has its value if it is decided, and its children see that value. -/
def conflictFreeAt (S : Setting) (a : Nat) : Encoder Unit := do
  let t := S.atoms.satisfied a
  let f := S.atoms.unsatisfied a
  Encoder.clause [t.neg, f.neg]
  let acceptance ← (← Encoder.ofExcept (S.linked a)).named .both
  Encoder.clause [t.neg, acceptance]
  Encoder.clause [f.neg, acceptance.negate]
  (S.framework.children a).forM fun c ↦ do
    let seen ← Encoder.ofExcept (S.atoms.link a c)
    Encoder.clauses [[t.neg, seen.pos], [f.neg, seen.neg]]

/-- The models are the conflict-free interpretations. -/
def conflictFree (S : Setting) : Encoder Unit :=
  S.framework.arguments.forM S.conflictFreeAt

/-- The models are the conflict-free interpretations that decide every argument, which are the
two-valued models. -/
def twoValued (S : Setting) : Encoder Unit := do
  S.conflictFree
  Encoder.clauses <| (List.range S.atoms.size).map fun a ↦
    [(S.atoms.satisfied a).pos, (S.atoms.unsatisfied a).pos]

/-- Names the acceptance conditions of all arguments, each over its own link atoms. -/
def acceptances (S : Setting) : Encoder (List Literal) :=
  S.framework.arguments.mapM fun a ↦ do
    let φ ← Encoder.ofExcept (S.linked a)
    φ.named .both

end Dialectical.Setting
