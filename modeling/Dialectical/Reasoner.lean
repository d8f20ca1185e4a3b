import Dialectical.Pipeline
import Dialectical.Semantics

/-!
# Reasoning under a semantics

A `Reasoner` is a framework with a semantics. It assembles the pipeline whose results are the models
of the semantics, and answers the queries about models: all of them, one of them, and whether an
argument is satisfied in some (`credulous`) or in every (`skeptical`) one of them. Each query has a
pipeline of its own, which is closed when the query is answered or ends with a fault.
-/

namespace Dialectical

/-- A framework with a semantics. -/
structure Reasoner where
  setting : Setting
  semantics : Semantics
  /-- How many dependent parents of an argument are enumerated, where this is done. -/
  k : Nat := defaultBound

/-- An answer to a query about one argument. -/
structure Acceptance where
  accepted : Bool
  /-- A model that shows why: for credulous acceptance one that satisfies the argument, for
  skeptical acceptance one that does not. -/
  certificate : Option Interpretation

namespace Reasoner

variable {σ α : Type}

/-- A reasoner with the atoms of the framework itself and the usual bound. -/
def of (F : Framework) (semantics : Semantics) : Reasoner := { setting := .of F, semantics }

/-- The pipeline whose results are the models of the semantics; if an interpretation is given, only
those that extend it. -/
def assemble (R : Reasoner) (given : Option Interpretation) : Pipeline :=
  let conflictFree := Generator.new .conflictFree given
  let twoValued := Generator.new .twoValued given
  let pruners : List Pruner := [{ k := R.k }]
  match R.semantics with
  | .conflictFree => { generator := conflictFree }
  | .naive => { generator := conflictFree, verifier := some (.new .naive) }
  | .admissible => { generator := conflictFree, pruners, verifier := some (.new .admissible) }
  | .complete => { generator := conflictFree, pruners, verifier := some (.new .complete) }
  | .preferred =>
    { generator := conflictFree, pruners, verifier := some (.new .admissible)
      late := [.maximizer { k := R.k }] }
  | .stable => { generator := twoValued, verifier := some (.new .stable) }
  | .twoValued => { generator := twoValued }
  | .ground => { generator := .new .ground given }

/-- Assembles a pipeline, and logs it. -/
def pipeline (R : Reasoner) (given : Option Interpretation) : Act σ Pipeline := do
  Act.log .info .reasoner
    ("building a pipeline for the " ++ R.semantics.shortName ++ " semantics on "
      ++ toString R.setting.framework.size ++ " arguments (restricted: "
      ++ toString given.isSome ++ ")")
  return R.assemble given

/-- Acts on a pipeline of its own, which is closed afterwards. -/
def withPipeline (R : Reasoner) (given : Option Interpretation) (x : Act Pipeline α) : Act σ α :=
  Act.bracket (R.pipeline given) Pipeline.close x

/-- All models that extend the given interpretation. -/
def modelsExtending (R : Reasoner) (given : Option Interpretation) : Act σ (List Interpretation) :=
  R.withPipeline given (Pipeline.all R.setting)

/-- All models. -/
def models (R : Reasoner) : Act σ (List Interpretation) := R.modelsExtending none

/-- One model, if there is one. -/
def model? (R : Reasoner) : Act σ (Option Interpretation) :=
  R.withPipeline none (Pipeline.next R.setting)

/-- Whether some model satisfies an argument. -/
def credulous (R : Reasoner) (a : Nat) : Act σ Acceptance := do
  let satisfying := (Interpretation.blank R.setting.framework.size).set a .satisfied
  let m ← R.withPipeline (some satisfying) (Pipeline.next R.setting)
  return ⟨m.isSome, m⟩

/-- Whether every model satisfies an argument. -/
def skeptical (R : Reasoner) (a : Nat) : Act σ Acceptance := do
  let m ← R.withPipeline none (Pipeline.find R.setting fun I ↦ !I.isSatisfied a)
  return ⟨m.isNone, m⟩

end Reasoner

end Dialectical
