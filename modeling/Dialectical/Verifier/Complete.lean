import Dialectical.Encoding.ConflictFree
import Dialectical.Lifecycle

/-!
# Verifying completeness

An interpretation is complete if it decides exactly what it forces: an argument is satisfied if its
condition is true under all completions, unsatisfied if it is false under all of them, and undecided
if it can take both values. One session with the names of all conditions serves for all
verifications; the interpretation is assumed on the links, so a verification leaves nothing behind.
-/

namespace Dialectical

/-- Verifies that interpretations are complete. -/
structure CompleteVerifier where
  phase : Lifecycle NamedSession := .unopened

namespace CompleteVerifier

/-- Opens the session of the verifier: the conditions are named and nothing else is required. -/
def start (S : Setting) : Act Unit NamedSession :=
  NamedSession.acquire S.atoms.count (Session.perform S.acceptances)

/-- Acts on what the verifier keeps. -/
def use {α : Type} (S : Setting) (x : Act NamedSession α) : Act CompleteVerifier α :=
  Act.on CompleteVerifier.phase (fun v phase ↦ { v with phase })
    (Lifecycle.use (start S) .closedVerifier x)

/-- Opens the session of the verifier, if it is not open yet. -/
def prepare (S : Setting) : Act CompleteVerifier Unit := use S (pure ())

/-- The literal by which an argument sees the value of one parent, if the parent is decided. -/
def seen (S : Setting) (I : Interpretation) (a r : Nat) : Except Fault (List Literal) := do
  match (← I.status r).value? with
  | none => return []
  | some b => return [⟨← S.atoms.link r a, b⟩]

/-- The literals by which an argument sees the values of its decided parents. -/
def seenBy (S : Setting) (I : Interpretation) (a : Nat) : Except Fault (List Literal) := do
  S.framework.require a
  return (← (S.framework.parents a).mapM (seen S I a)).flatten

/-- Whether the condition of an argument is as its status demands. -/
def verifyAt (S : Setting) (I : Interpretation) (a : Nat) (s : Status) : Act NamedSession Bool := do
  let fixed ← Act.ofExcept (seenBy S I a)
  let name ← NamedSession.nameOf a
  match s with
  | .satisfied => return !(← NamedSession.satisfiableWith (fixed ++ [name.negate]))
  | .unsatisfied => return !(← NamedSession.satisfiableWith (fixed ++ [name]))
  | .undecided =>
    if ← NamedSession.satisfiableWith (fixed ++ [name]) then
      NamedSession.satisfiableWith (fixed ++ [name.negate])
    else
      return false

/-- Whether all of some conditions are as the statuses demand; the first that is not ends the
verification. -/
def verifyFrom (S : Setting) (I : Interpretation) : List (Nat × Status) → Act NamedSession Bool
  | [] => pure true
  | (a, s) :: rest => do
    if ← verifyAt S I a s then verifyFrom S I rest else return false

/-- Whether an interpretation is complete. -/
def verify (S : Setting) (I : Interpretation) : Act CompleteVerifier Bool :=
  use S (verifyFrom S I I.entries)

/-- Closes the verifier. -/
def close : Act CompleteVerifier Unit :=
  Act.on CompleteVerifier.phase (fun v phase ↦ { v with phase })
    (Lifecycle.close NamedSession.release)

end CompleteVerifier

end Dialectical
