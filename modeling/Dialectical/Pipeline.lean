import Dialectical.Generator
import Dialectical.Processor
import Dialectical.Verifier

/-!
# Pipelines

A pipeline produces interpretations one by one: a generator gives candidates, processors may replace
them, a verifier accepts or rejects them, and more processors may replace what was accepted. What a
rejection teaches is given back to the generator as clauses. A pipeline opens no solver before it is
asked for its first result, and closes all its parts when there are no more.

After a fault a pipeline may be asked again; it goes on with the next candidate.
-/

namespace Dialectical

/-- The stages of a pipeline. -/
inductive Stage where
  /-- Nothing was asked of it yet. -/
  | idle
  /-- The next thing to do is to generate a candidate. -/
  | generating
  /-- A candidate is being verified, or its verification ended with a fault. -/
  | verifying
  /-- It was closed. -/
  | done
  deriving DecidableEq, Repr

/-- The name of a stage. -/
def Stage.name : Stage → String
  | idle => "Idle"
  | generating => "Generating"
  | verifying => "Verifying"
  | done => "Done"

/-- Where processors stand in a pipeline. -/
inductive Place where
  /-- Before the verifier. -/
  | early
  /-- After the verifier. -/
  | late
  deriving DecidableEq, Repr

/-- A generator with what its candidates go through. -/
structure Pipeline where
  generator : Generator
  pruners : List Pruner := []
  /-- What candidates go through before they are verified. -/
  early : List Processor := []
  /-- Without a verifier every candidate is accepted. -/
  verifier : Option Verifier := none
  /-- What candidates go through after they were accepted. -/
  late : List Processor := []
  stage : Stage := .idle
  /-- The number of candidates so far. -/
  candidates : Nat := 0
  /-- The number of results so far. -/
  results : Nat := 0

namespace Pipeline

variable {α : Type}

/-! ### Acting on the parts -/

/-- Acts on the generator. -/
def onGenerator (x : Act Generator α) : Act Pipeline α :=
  Act.on Pipeline.generator (fun p generator ↦ { p with generator }) x

/-- Acts on the verifier, if there is one. -/
def onVerifier (absent : α) (x : Act Verifier α) : Act Pipeline α := do
  match (← Act.get).verifier with
  | none => return absent
  | some v => Act.on (fun _ ↦ v) (fun p v ↦ { p with verifier := some v }) x

/-- The processors at a place. -/
def processors (p : Pipeline) : Place → List Processor
  | .early => p.early
  | .late => p.late

/-- The pipeline with other processors at a place. -/
def withProcessors (p : Pipeline) (ts : List Processor) : Place → Pipeline
  | .early => { p with early := ts }
  | .late => { p with late := ts }

/-- Takes a candidate through the processors at a place. -/
def process (S : Setting) (place : Place) (I : Interpretation) : Act Pipeline Interpretation :=
  Act.on (fun p ↦ (p.generator, p.processors place))
    (fun p q ↦ { p with generator := q.1 }.withProcessors q.2 place)
    (Act.through (Processor.apply S) I)

/-- Closes the processors at a place. -/
def closeProcessors (place : Place) : Act Pipeline Unit :=
  Act.on (fun p ↦ ((), p.processors place)) (fun p q ↦ p.withProcessors q.2 place)
    (Act.through (fun _ ↦ Act.second Processor.close) ())

/-- Enters a stage. -/
def enter (stage : Stage) : Act Pipeline Unit := Act.modify fun p ↦ { p with stage }

/-! ### Producing results -/

/-- Opens the generator, lets the pruners add their clauses, and opens the verifier. -/
def start (S : Setting) : Act Pipeline Unit := do
  onGenerator (Generator.prepare S)
  Act.on (fun p ↦ (p.generator, p.pruners))
    (fun p q ↦ { p with generator := q.1, pruners := q.2 })
    (Act.through (fun _ ↦ Pruner.prune S) ())
  onVerifier () (Verifier.prepare S)
  let p ← Act.get
  Act.log .debug .pipeline
    ("pipeline started (" ++ toString p.pruners.length ++ " state processors, "
      ++ toString (p.early.length + p.late.length)
      ++ " interpretation processors, with verifier: " ++ toString p.verifier.isSome ++ ")")

/-- Whether the verifier accepts a candidate. -/
def accepts (S : Setting) (I : Interpretation) : Act Pipeline Bool := do
  let accepted ← onVerifier true (Verifier.verify S I)
  let p ← Act.get
  Act.log .debug .pipeline
    ("candidate #" ++ toString p.candidates ++ " with " ++ toString I.countDecided
      ++ " decided arguments " ++ if accepted then "accepted" else "rejected")
  return accepted

/-- Gives what a rejection teaches to the generator. -/
def prune (S : Setting) (I : Interpretation) : Act Pipeline Unit := do
  let clauses ← onVerifier [] (Verifier.prune S I)
  onGenerator (Generator.use S (Session.perform (Encoder.clauses clauses)))

/-- The next accepted candidate, if there is one. At most `n` candidates are asked for, and it is a
fault if they are not enough. -/
def search (S : Setting) : (n : Nat) → Act Pipeline (Option Interpretation)
  | 0 => Act.throw .excludedModel
  | n + 1 => do
    enter .generating
    match ← onGenerator (Generator.next S) with
    | none => return none
    | some I =>
      Act.modify fun p ↦ { p with candidates := p.candidates + 1 }
      let I ← process S .early I
      enter .verifying
      if ← accepts S I then
        return some (← process S .late I)
      else
        prune S I
        search S n

/-- Closes a pipeline and all its parts. Closing it twice has no effect. -/
def close : Act Pipeline Unit := do
  if (← Act.get).stage ≠ .done then
    onGenerator Generator.close
    onVerifier () Verifier.close
    closeProcessors .early
    closeProcessors .late
    enter .done
    Act.log .debug .pipeline "pipeline closed"

/-- The next result, if there is one. When there is none the pipeline is closed. -/
def next (S : Setting) : Act Pipeline (Option Interpretation) := do
  match (← Act.get).stage with
  | .done => return none
  | .idle => start S
  | _ => pure ()
  match ← search S S.budget with
  | some I =>
    Act.modify fun p ↦ { p with results := p.results + 1, stage := .generating }
    return some I
  | none =>
    let p ← Act.get
    Act.log .info .pipeline
      ("pipeline exhausted after " ++ toString p.candidates ++ " candidates and "
        ++ toString p.results ++ " results")
    close
    return none

/-- All remaining results. -/
def all (S : Setting) : Act Pipeline (List Interpretation) := (next S).collect S.budget

/-- The first of the remaining results with a property; at most `n` results are asked for, and it is
a fault if they are not enough. -/
def findWithin (S : Setting) (good : Interpretation → Bool) :
    (n : Nat) → Act Pipeline (Option Interpretation)
  | 0 => Act.throw .excludedModel
  | n + 1 => do
    match ← next S with
    | none => return none
    | some I => if good I then return some I else findWithin S good n

/-- The first of the remaining results with a property. -/
def find (S : Setting) (good : Interpretation → Bool) : Act Pipeline (Option Interpretation) :=
  findWithin S good S.budget

end Pipeline

end Dialectical
