import Dialectical.Encoding.ConflictFree
import Dialectical.Encoding.Refinement
import Dialectical.Lifecycle

/-!
# Verifying that nothing larger is conflict-free

A conflict-free interpretation is naive if no conflict-free interpretation is strictly more
informative. One session with the encoding of conflict-freeness serves for all verifications. What a
verification adds is guarded by a fresh variable, its toggle, which is assumed for this verification
and negated for good afterwards.
-/

namespace Dialectical

/-- Verifies that no conflict-free interpretation is larger. -/
structure NaiveVerifier where
  phase : Lifecycle Session := .unopened
  /-- Whether the last verification failed and was not used for pruning yet. -/
  failed : Bool := false

namespace NaiveVerifier

/-- Opens the session of the verifier. -/
def start (S : Setting) : Act Unit Session := do
  let (_, session) ←
    Act.handOver (Session.acquire S.atoms.count) Session.release (Session.perform S.conflictFree)
  return session

/-- Acts on the session of the verifier. -/
def use {α : Type} (S : Setting) (x : Act Session α) : Act NaiveVerifier α :=
  Act.on NaiveVerifier.phase (fun v phase ↦ { v with phase })
    (Lifecycle.use (start S) .closedVerifier x)

/-- Opens the session of the verifier, if it is not open yet. -/
def prepare (S : Setting) : Act NaiveVerifier Unit := use S (pure ())

/-- Whether no model decides more than an interpretation. -/
def isMaximal (S : Setting) (I : Interpretation) : Act Session Bool := do
  let toggle ← Session.fresh
  Session.add (toggle.neg :: I.undecided.flatMap S.atoms.decided)
  Session.assume (S.atoms.fixing I ++ [toggle.pos])
  let maximal := !(← Session.satisfiable)
  Session.add [toggle.neg]
  return maximal

/-- Whether no conflict-free interpretation is strictly more informative. -/
def verify (S : Setting) (I : Interpretation) : Act NaiveVerifier Bool := do
  let maximal ← use S (isMaximal S I)
  Act.modify fun v ↦ { v with failed := !maximal }
  return maximal

/-- The clauses by which a failed verification prunes the candidates: everything below the
interpretation is as little naive as it is. -/
def prune (S : Setting) (I : Interpretation) : Act NaiveVerifier (List Clause) := do
  if (← Act.get).failed then
    Act.modify fun v ↦ { v with failed := false }
    return [S.atoms.exceeds I]
  else
    return []

/-- Closes the verifier. -/
def close : Act NaiveVerifier Unit :=
  Act.on NaiveVerifier.phase (fun v phase ↦ { v with phase }) (Lifecycle.close Session.release)

end NaiveVerifier

end Dialectical
