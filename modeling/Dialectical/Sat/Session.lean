import Dialectical.Act
import Dialectical.Encoding

/-!
# Solvers and sessions

A `Solver` is what a SAT solver has been told so far. The engine of the run answers for it. A
`Session` is an open solver with assumptions that wait for the next check; a check uses them up.

Both are values that actions transform. Opening and releasing a solver is noted in the journal, so
the number of open solvers is known at any time.

## Main definitions

* `Solver.acquire`, `Solver.release`, `Solver.solve`.
* `Session.satisfiable`, `Session.witness`: checks.
* `Session.perform`: carries out an encoding.
* `Session.during`: a session for the duration of an action, released whatever happens.
-/

namespace Dialectical

/-! ### Solvers -/

/-- What a solver was told. -/
structure Solver where
  /-- Its name in the journal. -/
  name : Nat
  /-- The number of known variables: those of the clauses, those room was made for and, if the
  engine counts them, those that were assumed when it was asked. -/
  known : Nat
  /-- The number of variables that covers all assumptions it was ever asked under. -/
  assumed : Nat
  /-- The clauses, the newest one first. -/
  clauses : List Clause
  /-- The observers of its calls. -/
  listeners : List Listener

namespace Solver

/-- Opens a solver that knows nothing. -/
def acquire {σ : Type} : Act σ Solver :=
  ⟨fun e s j ↦ ⟨.ok ⟨j.opened, 0, 0, [], e.listeners⟩, s, j.note (.opened j.opened)⟩⟩

/-- Notes a call of the solver in the journal. -/
def note (call : Nat → Event) : Act Solver Unit := do
  let s ← Act.get
  Act.record (·.note (call s.name))

/-- Releases the solver. -/
def release : Act Solver Unit := note .released

/-- Makes room for a number of variables. -/
def reserve (n : Nat) : Act Solver Unit := do
  Act.modify fun s ↦ { s with known := max s.known n }
  note (.reserved · n)

/-- Adds a clause. -/
def add (c : Clause) : Act Solver Unit := do
  Act.modify fun s ↦ { s with known := max s.known (Clause.span c), clauses := c :: s.clauses }
  note (.added · c)

/-- Adds a listener. -/
def listen (l : Listener) : Act Solver Unit :=
  Act.modify fun s ↦ { s with listeners := s.listeners ++ [l] }

/-- Tells a listener that a call starts. -/
def notifyStart (known clauses : Nat) : Listener → Act Solver Unit
  | .recorder => Act.record (·.hear (.start known clauses))
  | .logger => Act.log .trace .solverListener
      ("launching SAT solver on an instance with " ++ toString known ++ " variables and "
        ++ toString clauses ++ " clauses")

/-- The name of a verdict in the log. -/
def verdictName : Option Bool → String
  | some true => "SAT"
  | some false => "UNSAT"
  | none => "UNKNOWN"

/-- Tells a listener that a call ended. -/
def notifyFinish (verdict : Option Bool) : Listener → Act Solver Unit
  | .recorder => Act.record (·.hear (.finish verdict))
  | .logger =>
    Act.log .trace .solverListener ("SAT solver ended with result " ++ verdictName verdict)

/-- Takes note of the variables of assumptions, as far as the engine counts them. -/
def cover (assumptions : List Literal) : Act Solver Unit :=
  ⟨fun e s j ↦
    let n := Clause.span assumptions
    let known := if e.countsAssumed then max s.known n else s.known
    ⟨.ok (), { s with known, assumed := max s.assumed n }, j⟩⟩

/-- The problem that a solver is asked when it is called under assumptions. -/
def problem (s : Solver) (assumptions : List Literal) : Problem :=
  ⟨max s.known s.assumed, s.clauses, assumptions⟩

/-- The answer of the engine to the call that is being made. The calls made before are counted in
the journal, so this one has the next number. -/
def consult (assumptions : List Literal) : Act Solver Answer :=
  ⟨fun e s j ↦ ⟨.ok (e.answer (j.solves + 1) (s.problem assumptions)), s, j⟩⟩

/-- Whether the engine turns the next call away. -/
def refused : Act Solver Bool := ⟨fun e s j ↦ ⟨.ok (e.refuses (j.solves + 1)), s, j⟩⟩

/-- Asks the engine, with the listeners told before and after. -/
def call (assumptions : List Literal) : Act Solver Answer := do
  let s ← Act.get
  s.listeners.forM (notifyStart s.known s.clauses.length)
  cover assumptions
  let answer ← consult assumptions
  s.listeners.forM (notifyFinish answer.verdict)
  return answer

/-- Solves under assumptions. A call that is turned away is answered "unknown", and nobody but the
journal learns of it. -/
def solve (assumptions : List Literal) : Act Solver Answer := do
  let answer ← if ← refused then pure .unknown else call assumptions
  note (.solved · assumptions answer.verdict)
  return answer

end Solver

/-! ### Sessions -/

/-- An open solver with the assumptions for its next check. -/
structure Session where
  solver : Solver
  pending : List Literal

namespace Session

variable {σ α : Type}

/-- Acts on the solver of a session. -/
def onSolver (x : Act Solver α) : Act Session α :=
  Act.on Session.solver (fun s r ↦ { s with solver := r }) x

/-- Opens a session with room for `n` variables. -/
def acquire (n : Nat) : Act Unit Session := do
  let (_, solver) ← Act.handOver Solver.acquire Solver.release (Solver.reserve n)
  return ⟨solver, []⟩

/-- Opens a session with no room made. -/
def acquireBare : Act Unit Session := do
  return ⟨← Solver.acquire, []⟩

/-- Releases the solver of a session. -/
def release : Act Session Unit := do
  onSolver Solver.release
  Act.log .debug .session "closed a SAT solver state"

/-- Adds a clause. -/
def add (c : Clause) : Act Session Unit := onSolver (Solver.add c)

/-- Makes room for a number of variables. -/
def reserve (n : Nat) : Act Session Unit := onSolver (Solver.reserve n)

/-- Assumes literals for the next check, besides those that are waiting already. -/
def assume (ls : List Literal) : Act Session Unit :=
  Act.modify fun s ↦ { s with pending := s.pending ++ ls }

/-- Solves under the waiting assumptions, which are used up whatever the answer is. -/
def check : Act Session Answer := do
  let s ← Act.get
  Act.modify fun s ↦ { s with pending := [] }
  onSolver (Solver.solve s.pending)

/-- Whether the clauses and the waiting assumptions are satisfiable together. -/
def satisfiable : Act Session Bool := do
  Act.ofExcept (← check).isSatisfiable

/-- Those of the given variables that are true in a model, if there is a model. -/
def witness (vs : List Variable) : Act Session (Option (List Variable)) := do
  let m? ← Act.ofExcept (← check).model?
  return m?.map (·.trueAmong vs)

/-- A variable that the solver does not know yet, and knows from now on. -/
def fresh : Act Session Variable := do
  let s ← Act.get
  reserve (s.solver.known + 1)
  return s.solver.known

/-- Carries out one request. -/
def direct : Directive → Act Session Unit
  | .clause c => add c
  | .reserve n => reserve n

/-- Carries out an encoding: everything it asks for, and then its fault if it has one. -/
def perform (x : Encoder α) : Act Session α := do
  let s ← Act.get
  let o := x.emission s.solver.known
  o.directives.forM direct
  Act.ofExcept o.result

/-- A session for the duration of an action. -/
def during (n : Nat) (x : Act Session α) : Act σ α := Act.bracket (acquire n) release x

end Session

/-! ### Sessions that may be closed -/

namespace Session

variable {α : Type}

/-- Acts on a session that may have been closed. -/
def use (x : Act Session α) : Act (Option Session) α := do
  match ← Act.get with
  | none => Act.throw .closedSession
  | some s => Act.into some s x

/-- Closes a session. Closing it twice has no effect. -/
def close : Act (Option Session) Unit := do
  match ← Act.get with
  | none => pure ()
  | some s =>
    Act.into some s release
    Act.modify fun _ ↦ none

end Session

end Dialectical
