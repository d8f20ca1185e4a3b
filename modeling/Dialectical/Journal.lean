import Dialectical.Sat.Engine

/-!
# The journal of a run

Everything a run leaves behind besides its result: log records, the calls that its solvers saw,
what recording listeners heard, and the counts of solvers, clauses and calls. A run only ever adds
to its journal. Of what is in it, a run reads two numbers only: that of the solvers opened, which
names the next solver, and that of the calls made, which the engine is told.
-/

namespace Dialectical

/-! ### Log records -/

/-- The severities of log records, the most severe one first. -/
inductive Level where
  | error
  | warn
  | info
  | debug
  | trace
  deriving DecidableEq, Repr

namespace Level

/-- The name of a level. -/
def name : Level → String
  | error => "ERROR"
  | warn => "WARN"
  | info => "INFO"
  | debug => "DEBUG"
  | trace => "TRACE"

/-- The rank of a level; more severe levels come first. -/
def rank : Level → Nat
  | error => 0
  | warn => 1
  | info => 2
  | debug => 3
  | trace => 4

/-- Whether a record of this level passes a limit: it must be at least as severe. -/
def passes (l limit : Level) : Bool := l.rank ≤ limit.rank

end Level

/-- The parts of the library that write log records. -/
inductive Component where
  | session
  | solverListener
  | linkTypes
  | bipolarEncoding
  | witnessGenerator
  | groundGenerator
  | processors
  | pipeline
  | reasoner
  deriving DecidableEq, Repr

/-- A log record. -/
structure Record where
  level : Level
  component : Component
  message : String
  deriving DecidableEq, Repr

/-! ### Calls of solvers -/

/-- What a solver saw. Solvers are named by the order in which they were opened. -/
inductive Event where
  | opened (solver : Nat)
  | added (solver : Nat) (c : Clause)
  /-- Room was made for this many variables. -/
  | reserved (solver : Nat) (n : Nat)
  | solved (solver : Nat) (assumptions : List Literal) (verdict : Option Bool)
  | released (solver : Nat)
  deriving DecidableEq, Repr

/-- What a recording listener heard. -/
inductive Heard where
  /-- A call started, on so many variables and clauses. -/
  | start (known clauses : Nat)
  /-- A call ended. -/
  | finish (verdict : Option Bool)
  deriving DecidableEq, Repr

/-! ### Journals -/

/-- The journal of a run. -/
structure Journal where
  /-- The number of solvers opened. -/
  opened : Nat
  /-- The number of solvers released. -/
  released : Nat
  /-- The number of clauses added to solvers. -/
  clauses : Nat
  /-- The number of calls made to solvers. -/
  solves : Nat
  /-- The log records, the oldest one first. -/
  log : Array Record
  /-- The calls that solvers saw, the oldest one first. -/
  trace : Array Event
  /-- What recording listeners heard, the oldest first. -/
  heard : Array Heard

namespace Journal

/-- The journal of a run that has not begun. -/
def empty : Journal := ⟨0, 0, 0, 0, #[], #[], #[]⟩

/-- The number of solvers that are open. -/
def live (j : Journal) : Nat := j.opened - j.released

/-- Adds a log record. -/
def write (j : Journal) (r : Record) : Journal := { j with log := j.log.push r }

/-- Adds a call of a solver to the trace, and counts it. -/
def note (j : Journal) (ev : Event) : Journal :=
  match ev with
  | .opened _ => { j with opened := j.opened + 1, trace := j.trace.push ev }
  | .added .. => { j with clauses := j.clauses + 1, trace := j.trace.push ev }
  | .reserved .. => { j with trace := j.trace.push ev }
  | .solved .. => { j with solves := j.solves + 1, trace := j.trace.push ev }
  | .released _ => { j with released := j.released + 1, trace := j.trace.push ev }

/-- Adds what a recording listener heard. -/
def hear (j : Journal) (h : Heard) : Journal := { j with heard := j.heard.push h }

end Journal

end Dialectical
