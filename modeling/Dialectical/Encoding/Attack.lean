import Dialectical.Atoms
import Dialectical.Encoding.Naming

/-!
# Attacks on an interpretation

An interpretation is admissible if no completion of it makes the condition of a decided argument
take the opposite value. The encoding here looks for such an attack: its models are the completions,
on the link atoms of the decided arguments, under which some decided argument fails. The
interpretation is admissible if and only if there is no model.

A condition is only ever asked to fail in one direction, so a name of one polarity is enough.
-/

namespace Dialectical.Setting

/-- Fixes the value that an argument sees at a decided parent. -/
def fixLink (S : Setting) (I : Interpretation) (a r : Nat) : Encoder Unit := do
  match (← Encoder.ofExcept (I.status r)).value? with
  | none => pure ()
  | some b => Encoder.clause [⟨← Encoder.ofExcept (S.atoms.link r a), b⟩]

/-- Names the condition of a decided argument, on a completion of its parents, and returns the
literal that says that the condition does not have the value of the argument. -/
def failure (S : Setting) (I : Interpretation) (a : Nat) (value : Bool) : Encoder Literal := do
  Encoder.ofExcept (S.framework.require a)
  (S.framework.parents a).forM (S.fixLink I a)
  let φ ← Encoder.ofExcept (S.linked a)
  if value then
    return (← φ.named .negative).negate
  else
    φ.named .positive

/-- The models are the attacks on an interpretation. -/
def attack (S : Setting) (I : Interpretation) : Encoder Unit := do
  let failures ← I.decided.mapM fun p ↦ S.failure I p.1 p.2
  Encoder.clause failures

end Dialectical.Setting
