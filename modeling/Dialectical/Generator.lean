import Dialectical.Encoding.Refinement
import Dialectical.Generator.Ground

/-!
# Generators of candidates

A generator produces, one by one, the interpretations that a search starts from: the conflict-free
ones, the two-valued models, or the ground interpretation. It keeps one session, from its first use
until it is closed. Others may add clauses to this session while the generator is running
(`Generator.use`), which is how candidates are excluded before they are produced.

Each candidate that a generator reads off a model is excluded at once, so none comes twice.
-/

namespace Dialectical

/-- What a generator produces. -/
inductive Goal where
  | conflictFree
  | twoValued
  | ground
  deriving DecidableEq, Repr

/-- A generator of candidates. -/
structure Generator where
  goal : Goal
  /-- If given, only interpretations that extend it are produced. -/
  given : Option Interpretation
  phase : Lifecycle NamedSession

namespace Generator

variable {α : Type}

/-- A generator that was not used yet. -/
def new (goal : Goal) (given : Option Interpretation) : Generator := ⟨goal, given, .unopened⟩

/-- What is logged when the session of a generator is opened. -/
def logOpening (goal : Goal) (given : Option Interpretation) : Act Session Unit :=
  let opened (name : String) :=
    "opened the state of a " ++ name ++ " generator (restricted: " ++ toString given.isSome ++ ")"
  match goal with
  | .conflictFree => Act.log .debug .witnessGenerator (opened "ConflictFree")
  | .twoValued => Act.log .debug .witnessGenerator (opened "TwoValued")
  | .ground => Act.log .debug .groundGenerator (opened "ground")

/-- The clauses a generator starts with. The ground generator needs the names of all conditions,
and takes the interpretation that is to be extended into account later. -/
def encoding (S : Setting) (goal : Goal) (given : Option Interpretation) :
    Encoder (List Literal) := do
  match goal with
  | .conflictFree => S.conflictFree
  | .twoValued => S.twoValued
  | .ground => S.conflictFree
  match goal with
  | .ground => S.acceptances
  | _ =>
    Encoder.clauses <|
      match given with
      | none => []
      | some I => (S.atoms.fixing I).map ([·])
    return []

/-- Opens the session of a generator. -/
def start (S : Setting) (goal : Goal) (given : Option Interpretation) : Act Unit NamedSession :=
  NamedSession.acquire S.atoms.count do
    let names ← Session.perform (encoding S goal given)
    logOpening goal given
    return names

/-- Acts on what a generator keeps. -/
def useNamed (S : Setting) (x : Act NamedSession α) : Act Generator α := do
  let g ← Act.get
  Act.on Generator.phase (fun g phase ↦ { g with phase })
    (Lifecycle.use (start S g.goal g.given) .closedGenerator x)

/-- Acts on the session of a generator. -/
def use (S : Setting) (x : Act Session α) : Act Generator α :=
  useNamed S (NamedSession.onSession x)

/-- Opens the session of a generator, if it is not open yet. -/
def prepare (S : Setting) : Act Generator Unit := useNamed S (pure ())

/-- The interpretation of the next model, which is excluded from then on. -/
def nextWitness (S : Setting) : Act Session (Option Interpretation) := do
  match ← Session.witness S.atoms.ofArguments with
  | none => return none
  | some vs =>
    let I := S.atoms.interpretation vs
    Session.add (S.atoms.differs I)
    return some I

/-- The next candidate, if there is one. -/
def next (S : Setting) : Act Generator (Option Interpretation) := do
  match (← Act.get).goal with
  | .ground => useNamed S (S.nextGround (← Act.get).given)
  | _ => use S (nextWitness S)

/-- Closes a generator. Closing it twice has no effect. -/
def close : Act Generator Unit :=
  Act.on Generator.phase (fun g phase ↦ { g with phase }) (Lifecycle.close NamedSession.release)

end Generator

/-! ### Producing until there is nothing left -/

/-- More than the number of interpretations there are. A sound solver that never gives an excluded
model cannot be asked more often than this. -/
def Setting.budget (S : Setting) : Nat := Nat.pow 3 S.atoms.size + 1

/-- The values an action gives until it gives none; at most `n` calls are made, and it is a fault if
they are not enough. -/
def Act.collect {σ α : Type} (x : Act σ (Option α)) : Nat → Act σ (List α)
  | 0 => Act.throw .excludedModel
  | n + 1 => do
    match ← x with
    | none => return []
    | some a => return a :: (← x.collect n)

/-- All remaining candidates. -/
def Generator.all (S : Setting) : Act Generator (List Interpretation) :=
  (Generator.next S).collect S.budget

/-- The interpretations of all models of a session, each of which is excluded in turn. -/
def Setting.allWitnesses (S : Setting) : Act Session (List Interpretation) :=
  (Generator.nextWitness S).collect S.budget

end Dialectical
