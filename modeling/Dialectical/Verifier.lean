import Dialectical.Verifier.Admissible
import Dialectical.Verifier.Complete
import Dialectical.Verifier.Naive
import Dialectical.Verifier.Preferred
import Dialectical.Verifier.Stable

/-!
# Verifiers

A verifier accepts or rejects candidates, and after a rejection it may know clauses that exclude
more than the rejected candidate.
-/

namespace Dialectical

/-- What a verifier verifies. -/
inductive Criterion where
  | admissible
  | complete
  | naive
  | preferred
  | stable
  deriving DecidableEq, Repr

/-- A verifier of one of the criteria. -/
inductive Verifier where
  | admissible (v : AdmissibleVerifier)
  | complete (v : CompleteVerifier)
  | naive (v : NaiveVerifier)
  | preferred (v : PreferredVerifier)
  | stable (v : StableVerifier)

namespace Verifier

/-- A verifier that was not used yet. -/
def new : Criterion → Verifier
  | .admissible => admissible {}
  | .complete => complete {}
  | .naive => naive {}
  | .preferred => preferred {}
  | .stable => stable {}

/-- Makes a verifier ready for its first candidate; it is a fault if the verifier is closed. -/
def prepare (S : Setting) : Act Verifier Unit := do
  match ← Act.get with
  | admissible v => Act.into admissible v AdmissibleVerifier.prepare
  | complete v => Act.into complete v (CompleteVerifier.prepare S)
  | naive v => Act.into naive v (NaiveVerifier.prepare S)
  | preferred v => Act.into preferred v PreferredVerifier.prepare
  | stable v => Act.into stable v StableVerifier.prepare

/-- Whether a candidate is accepted. -/
def verify (S : Setting) (I : Interpretation) : Act Verifier Bool := do
  match ← Act.get with
  | admissible v => Act.into admissible v (AdmissibleVerifier.verify S I)
  | complete v => Act.into complete v (CompleteVerifier.verify S I)
  | naive v => Act.into naive v (NaiveVerifier.verify S I)
  | preferred v => Act.into preferred v (PreferredVerifier.verify S I)
  | stable v => Act.into stable v (StableVerifier.verify S I)

/-- The clauses by which the last verification prunes the candidates, if it was of this candidate.
-/
def prune (S : Setting) (I : Interpretation) : Act Verifier (List Clause) := do
  match ← Act.get with
  | naive v => Act.into naive v (NaiveVerifier.prune S I)
  | preferred v => Act.into preferred v (PreferredVerifier.prune S I)
  | _ => return []

/-- The larger admissible interpretation that the last verification found, for verifiers that look
for one. -/
def larger? : Verifier → Option Interpretation
  | preferred v => v.larger
  | _ => none

/-- Closes a verifier. -/
def close : Act Verifier Unit := do
  match ← Act.get with
  | admissible v => Act.into admissible v AdmissibleVerifier.close
  | complete v => Act.into complete v CompleteVerifier.close
  | naive v => Act.into naive v NaiveVerifier.close
  | preferred v => Act.into preferred v PreferredVerifier.close
  | stable v => Act.into stable v StableVerifier.close

/-- Those of some candidates that are accepted, verified in order. -/
def filter (S : Setting) : List Interpretation → Act Verifier (List Interpretation)
  | [] => pure []
  | I :: rest => do
    let accepted ← verify S I
    let others ← filter S rest
    return if accepted then I :: others else others

end Verifier

end Dialectical
