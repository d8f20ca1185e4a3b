import Dialectical.Generator
import Dialectical.Lifecycle

/-!
# Verifying stability

A two-valued interpretation is stable if every argument it satisfies has a reason that does not rest
on itself: in the reduct by its unsatisfied arguments, the ground interpretation is the
interpretation again. The reduct has no links that the framework lacks, so the atoms of the
framework serve for it.
-/

namespace Dialectical

/-- Verifies that interpretations are stable. -/
structure StableVerifier where
  closed : Bool := false

namespace StableVerifier

/-- It is a fault to use a closed verifier. -/
def prepare : Act StableVerifier Unit := do
  if (← Act.get).closed then Act.throw .closedVerifier

/-- The ground interpretation of a setting if it extends the given one, by a generator that is
released afterwards. -/
def ground {σ : Type} (S : Setting) (I : Interpretation) : Act σ (Option Interpretation) :=
  Act.bracket (pure (Generator.new .ground (some I))) Generator.close (Generator.next S)

/-- Whether an interpretation is stable. -/
def verify (S : Setting) (I : Interpretation) : Act StableVerifier Bool := do
  prepare
  if I.isTwoValued then
    let reduct ← Act.ofExcept (S.framework.reduct I.onlyUnsatisfied)
    let result ← ground ⟨reduct, S.atoms⟩ I
    return result = some I
  else
    return false

/-- Closes the verifier. -/
def close : Act StableVerifier Unit := Act.modify fun v ↦ { v with closed := true }

end StableVerifier

end Dialectical
