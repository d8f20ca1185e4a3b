import Dialectical.Encoding.Attack
import Dialectical.Lifecycle

/-!
# Verifying admissibility

An interpretation is admissible if there is no attack on it. Each verification has a session of its
own, so the verifier keeps nothing but whether it was closed.
-/

namespace Dialectical

/-- Verifies that interpretations are admissible. -/
structure AdmissibleVerifier where
  closed : Bool := false

namespace AdmissibleVerifier

/-- It is a fault to use a closed verifier. -/
def prepare : Act AdmissibleVerifier Unit := do
  if (← Act.get).closed then Act.throw .closedVerifier

/-- Whether an interpretation is admissible. -/
def verify (S : Setting) (I : Interpretation) : Act AdmissibleVerifier Bool := do
  prepare
  Session.during S.atoms.count do
    Session.perform (S.attack I)
    return !(← Session.satisfiable)

/-- Closes the verifier. -/
def close : Act AdmissibleVerifier Unit := Act.modify fun v ↦ { v with closed := true }

end AdmissibleVerifier

end Dialectical
