import Dialectical.Sat.Clause

/-!
# Engines: what a SAT solver answers

Everything in this library that depends on a SAT solver is generic over an `Engine`, a pure
function from problems to answers. The function also gets the number of the call, so that the
choice of models may depend on the history of the run in any way, and so that an engine may give up
at some calls and not at others.

`Engine.Sound` is what results rely on: models satisfy the problem and "unsatisfiable" is only said
of unsatisfiable problems. `Engine.Correct` adds that the engine never gives up.
-/

namespace Dialectical

/-- A question for a SAT solver. -/
structure Problem where
  /-- The number of variables the solver knows of. -/
  known : Nat
  /-- The clauses, the newest one first. -/
  clauses : List Clause
  /-- The literals to be assumed for this question only. -/
  assumptions : List Literal

namespace Problem

/-- A valuation solves a problem if it makes every clause and every assumption true. -/
def SolvedBy (p : Problem) (v : Variable → Bool) : Prop :=
  (∀ c ∈ p.clauses, c.holds v) ∧ ∀ l ∈ p.assumptions, l.holds v

/-- Some valuation solves the problem. -/
def Satisfiable (p : Problem) : Prop := ∃ v, p.SolvedBy v

/-- An assignment solves a problem if it makes a literal of every clause, and every assumption,
true. -/
def AnsweredBy (p : Problem) (m : Assignment) : Prop :=
  (∀ c ∈ p.clauses, ∃ l ∈ c, m.makes l) ∧ ∀ l ∈ p.assumptions, m.makes l

end Problem

/-- The answer of a SAT solver. -/
inductive Answer where
  | satisfiable (m : Assignment)
  | unsatisfiable
  | unknown
  deriving DecidableEq, Repr

namespace Answer

/-- Whether the answer says satisfiable, if it says anything. -/
def verdict : Answer → Option Bool
  | satisfiable _ => some true
  | unsatisfiable => some false
  | unknown => none

/-- Whether the answer says satisfiable; it is a fault if the solver gave up. -/
def isSatisfiable : Answer → Except Fault Bool
  | satisfiable _ => .ok true
  | unsatisfiable => .ok false
  | unknown => .error .unknownAnswer

/-- The model, if there is one; it is a fault if the solver gave up. -/
def model? : Answer → Except Fault (Option Assignment)
  | satisfiable m => .ok (some m)
  | unsatisfiable => .ok none
  | unknown => .error .unknownAnswer

/-- What an answer claims about the problem is true. -/
def SoundFor (p : Problem) : Answer → Prop
  | satisfiable m => p.AnsweredBy m
  | unsatisfiable => ¬p.Satisfiable
  | unknown => True

end Answer

/-- Observers of the calls of a solver. -/
inductive Listener where
  /-- Notes every call in the journal of the run. -/
  | recorder
  /-- Writes a log record at the start and at the end of every call. -/
  | logger
  deriving DecidableEq, Repr

/-- A SAT solver, seen from outside. -/
structure Engine where
  /-- Whether solving under assumptions makes the assumed variables known, so that they count as
  used from then on. -/
  countsAssumed : Bool
  /-- The listeners every new solver comes with. -/
  listeners : List Listener
  /-- The calls that are turned away: they are answered "unknown" and the solver never sees them. -/
  refuses : Nat → Bool
  /-- The answer to a problem, at the call with the given number. -/
  answer : Nat → Problem → Answer

namespace Engine

/-- The answers of the engine are true. -/
def Sound (e : Engine) : Prop := ∀ n p, (e.answer n p).SoundFor p

/-- The engine answers every call. -/
def Decisive (e : Engine) : Prop :=
  (∀ n, e.refuses n = false) ∧ ∀ n p, e.answer n p ≠ .unknown

/-- The engine answers every call, and truly. The choice of models is free. -/
structure Correct (e : Engine) : Prop where
  sound : e.Sound
  decisive : e.Decisive

end Engine

end Dialectical
