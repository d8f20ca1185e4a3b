import Dialectical.Encoding.ConflictFree
import Dialectical.Lifecycle

/-!
# The ground interpretation

The least fixpoint of the operator that decides an argument as soon as its condition has the same
value under all completions of what is decided so far. Whether it has is asked of a SAT solver: the
condition is true throughout if its name cannot be false. A decision is made permanent at once, so
that it counts for the arguments that come later in the same round; the rounds end when one of them
decides nothing.

If an interpretation is given that the result has to extend, the computation ends early when it
decides an argument of it the other way.
-/

namespace Dialectical.Setting

/-- Whether deciding an argument with this status contradicts the interpretation that is to be
extended. -/
def contradicts (given : Option Interpretation) (a : Nat) (s : Status) : Except Fault Bool :=
  match given with
  | none => .ok false
  | some I => do
    let t ← I.status a
    return t ≠ .undecided && t ≠ s

/-- The status that the decisions so far force on an argument, which is made permanent; or nothing
if its condition can still take both values. -/
def forcedStatus (S : Setting) (a : Nat) : Act NamedSession (Option Status) := do
  let name ← NamedSession.nameOf a
  if !(← NamedSession.satisfiableWith [name.negate]) then
    NamedSession.onSession (Session.add [(S.atoms.satisfied a).pos])
    return some .satisfied
  else if !(← NamedSession.satisfiableWith [name]) then
    NamedSession.onSession (Session.add [(S.atoms.unsatisfied a).pos])
    return some .unsatisfied
  else
    return none

/-- One round over some undecided arguments. The result is the enlarged interpretation, or nothing
if a decision contradicts the interpretation that is to be extended. -/
def groundRound (S : Setting) (given : Option Interpretation) :
    List Nat → Interpretation → Act NamedSession (Option Interpretation)
  | [], I => pure (some I)
  | a :: rest, I => do
    match ← S.forcedStatus a with
    | none => S.groundRound given rest I
    | some s =>
      if ← Act.ofExcept (contradicts given a s) then
        let label ← Act.ofExcept (S.framework.labels.label a)
        Act.log .debug .groundGenerator
          ("ground computation contradicts its prefix on argument " ++ label)
        return none
      else
        S.groundRound given rest (I.set a s)

/-- Rounds until one of them decides nothing, with the number of rounds; at most `n` of them. A
round that is not the last one decides an argument, so one more round than there are arguments is
always enough. -/
def groundRounds (S : Setting) (given : Option Interpretation) :
    (n : Nat) → (done : Nat) → Interpretation → Act NamedSession (Option (Nat × Interpretation))
  | 0, done, I => pure (some (done, I))
  | n + 1, done, I => do
    match ← S.groundRound given I.undecided I with
    | none => return none
    | some next =>
      if next = I then
        return some (done + 1, I)
      else
        S.groundRounds given n (done + 1) next

/-- The ground interpretation, if it extends the given one. -/
def groundFixpoint (S : Setting) (given : Option Interpretation) :
    Act NamedSession (Option Interpretation) := do
  match ← S.groundRounds given (S.framework.size + 1) 0 (.blank S.framework.size) with
  | none => return none
  | some (rounds, I) =>
    Act.log .debug .groundGenerator
      ("ground fixpoint reached after " ++ toString rounds ++ " rounds with "
        ++ toString I.countDecided ++ " decided arguments")
    match given with
    | none => return some I
    | some J =>
      if I.extends? J then
        return some I
      else
        Act.log .debug .groundGenerator "ground interpretation does not extend its prefix"
        return none

/-- Makes the clauses of a session unsatisfiable for good, by a fresh variable and its negation. -/
def exhaust : Act NamedSession Unit :=
  NamedSession.onSession do
    let v ← Session.fresh
    Session.add [v.pos]
    Session.add [v.neg]

/-- The first time, the ground interpretation if it extends the given one; nothing from then on. -/
def nextGround (S : Setting) (given : Option Interpretation) :
    Act NamedSession (Option Interpretation) := do
  if !(← NamedSession.satisfiableWith []) then
    return none
  else
    let result ← S.groundFixpoint given
    exhaust
    return result

end Dialectical.Setting
