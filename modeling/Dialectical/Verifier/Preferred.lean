import Dialectical.Encoding.ConflictFree
import Dialectical.Generator
import Dialectical.Verifier.Admissible

/-!
# Verifying preference

An interpretation is preferred if it is admissible and no strictly more informative interpretation
is. The second half is a search of its own: the larger conflict-free interpretations are enumerated
until one of them is admissible.
-/

namespace Dialectical

/-- Verifies that interpretations are preferred. -/
structure PreferredVerifier where
  admissible : AdmissibleVerifier := {}
  /-- The larger admissible interpretation that the last verification found, if it found one and was
  not used for pruning yet. -/
  larger : Option Interpretation := none

namespace PreferredVerifier

/-- Acts on the verifier of admissibility. -/
def onAdmissible {α : Type} (x : Act AdmissibleVerifier α) : Act PreferredVerifier α :=
  Act.on PreferredVerifier.admissible (fun v admissible ↦ { v with admissible }) x

/-- It is a fault to use a closed verifier. -/
def prepare : Act PreferredVerifier Unit := onAdmissible AdmissibleVerifier.prepare

/-- The first admissible interpretation among those of the models of a session; at most `n` models
are asked for, and it is a fault if they are not enough. -/
def firstAdmissible (S : Setting) : Nat → Act (Session × AdmissibleVerifier) (Option Interpretation)
  | 0 => Act.throw .excludedModel
  | n + 1 => do
    match ← Act.first (Session.witness S.atoms.ofArguments) with
    | none => return none
    | some vs =>
      let I := S.atoms.interpretation vs
      if ← Act.second (AdmissibleVerifier.verify S I) then
        return some I
      else
        Act.first (Session.add (S.atoms.differs I))
        firstAdmissible S n

/-- A strictly more informative admissible interpretation, if there is one. -/
def findLarger (S : Setting) (I : Interpretation) :
    Act AdmissibleVerifier (Option Interpretation) :=
  Act.bracketBeside (Session.acquire S.atoms.count) Session.release do
    Act.first do
      Session.perform S.conflictFree
      Session.perform (Encoder.clauses (S.atoms.extending I))
    firstAdmissible S S.budget

/-- Whether an interpretation is preferred. -/
def verify (S : Setting) (I : Interpretation) : Act PreferredVerifier Bool := do
  Act.modify fun v ↦ { v with larger := none }
  if ← onAdmissible (AdmissibleVerifier.verify S I) then
    let larger ← onAdmissible (findLarger S I)
    Act.modify fun v ↦ { v with larger }
    return larger.isNone
  else
    return false

/-- The clauses by which a verification prunes the candidates that found a larger admissible
interpretation: nothing below the interpretation is preferred. -/
def prune (S : Setting) (I : Interpretation) : Act PreferredVerifier (List Clause) := do
  if (← Act.get).larger.isSome then
    Act.modify fun v ↦ { v with larger := none }
    return [S.atoms.exceeds I]
  else
    return []

/-- Closes the verifier. -/
def close : Act PreferredVerifier Unit := onAdmissible AdmissibleVerifier.close

end PreferredVerifier

end Dialectical
