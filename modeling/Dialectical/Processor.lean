import Dialectical.Encoding.Bipolar
import Dialectical.Encoding.ConflictFree
import Dialectical.Generator
import Dialectical.Verifier.Admissible

/-!
# Processors

Two kinds of helpers of a pipeline.

* A `Pruner` adds clauses to the session of the generator before the first candidate: the worst
  cases of undecided parents, which exclude candidates that are not admissible.
* A `Processor` replaces candidates by others. The maximizer replaces an interpretation by a maximal
  admissible one above it, and excludes everything below the result.

The types of the links are computed when they are needed first, and kept.
-/

namespace Dialectical

/-! ### Pruners -/

/-- Adds the worst cases of undecided parents, with the bound `k` on enumeration. -/
structure Pruner where
  k : Nat
  /-- The types of the links, once they are known. -/
  types : Option LinkTypes := none

/-- The types of the links of a framework, from what is kept or by computing them. -/
def keptLinkTypes (F : Framework) : Act (Option LinkTypes) LinkTypes := do
  match ← Act.get with
  | some types => return types
  | none =>
    let types ← F.linkTypes
    Act.log .debug .processors
      ("computed the types of " ++ toString types.length ++ " links ("
        ++ toString (types.countP (·.2.isBipolar)) ++ " bipolar)")
    Act.modify fun _ ↦ some types
    return types

namespace Pruner

/-- The types of the links. -/
def linkTypes (S : Setting) : Act Pruner LinkTypes :=
  Act.on Pruner.types (fun p types ↦ { p with types }) (keptLinkTypes S.framework)

/-- Adds the clauses of the pruner to the session of a generator. -/
def prune (S : Setting) : Act (Generator × Pruner) Unit := do
  Act.first (Generator.prepare S)
  let types ← Act.second (linkTypes S)
  let p := (← Act.get).2
  Act.first (Generator.use S (S.addBipolar types p.k))

end Pruner

/-! ### Maximization -/

/-- Replaces interpretations by maximal admissible ones above them. -/
structure Maximizer where
  k : Nat
  /-- The types of the links, once they are known. -/
  types : Option LinkTypes := none
  admissible : AdmissibleVerifier := {}

namespace Maximizer

/-- Climbs from an interpretation to larger admissible ones for as long as the session has models.
Each model is either admissible, and the search goes on strictly above it, or it is excluded.
Returns where the climb ends and the number of its steps; at most `n` models are asked for, and it
is a fault if they are not enough. -/
def climb (S : Setting) : (n : Nat) → (steps : Nat) → Interpretation →
    Act (Session × AdmissibleVerifier) (Nat × Interpretation)
  | 0, _, _ => Act.throw .excludedModel
  | n + 1, steps, I => do
    match ← Act.first (Session.witness S.atoms.ofArguments) with
    | none => return (steps, I)
    | some vs =>
      let J := S.atoms.interpretation vs
      if ← Act.second (AdmissibleVerifier.verify S J) then
        Act.first (Session.perform (Encoder.clauses (S.atoms.extending J)))
        climb S n (steps + 1) J
      else
        Act.first (Session.add (S.atoms.differs J))
        climb S n steps I

/-- The session of a climb: the worst cases are excluded and only larger interpretations are left.
-/
def prepare (S : Setting) (I : Interpretation) : Act (Session × Maximizer) Unit := do
  Act.first (Session.perform S.conflictFree)
  let types ← Act.second <|
    Act.on Maximizer.types (fun m types ↦ { m with types }) (keptLinkTypes S.framework)
  let m := (← Act.get).2
  Act.first do
    S.addBipolar types m.k
    Session.perform (Encoder.clauses (S.atoms.extending I))

/-- A maximal admissible interpretation strictly above a candidate, or the candidate itself if there
is none. -/
def process (S : Setting) (I : Interpretation) : Act Maximizer Interpretation := do
  let (steps, J) ← Act.bracketBeside (Session.acquire S.atoms.count) Session.release do
    prepare S I
    Act.on (fun p ↦ (p.1, p.2.admissible))
      (fun p q ↦ (q.1, { p.2 with admissible := q.2 })) (climb S S.budget 0 I)
  Act.log .debug .processors
    ("maximized an admissible interpretation in " ++ toString steps ++ " steps ("
      ++ toString J.countDecided ++ " decided arguments)")
  return J

/-- Closes the maximizer. -/
def close : Act Maximizer Unit :=
  Act.on Maximizer.admissible (fun m admissible ↦ { m with admissible }) AdmissibleVerifier.close

end Maximizer

/-! ### Processors -/

/-- What replaces candidates in a pipeline. -/
inductive Processor where
  | maximizer (m : Maximizer)
  /-- Applies a function, and excludes nothing. -/
  | function (f : Interpretation → Interpretation)

namespace Processor

/-- The interpretation that replaces a candidate. -/
def process (S : Setting) (I : Interpretation) : Act Processor Interpretation := do
  match ← Act.get with
  | maximizer m => Act.into maximizer m (Maximizer.process S I)
  | function f => return f I

/-- The clauses that keep the generator from producing what is settled by a replacement. -/
def exclusions (S : Setting) (I : Interpretation) : Processor → List Clause
  | maximizer _ => [S.atoms.exceeds I]
  | function _ => []

/-- Replaces a candidate, and tells the generator. -/
def apply (S : Setting) (I : Interpretation) : Act (Generator × Processor) Interpretation := do
  let J ← Act.second (process S I)
  let clauses := exclusions S J (← Act.get).2
  Act.first (Generator.use S (Session.perform (Encoder.clauses clauses)))
  return J

/-- Closes a processor. -/
def close : Act Processor Unit := do
  match ← Act.get with
  | maximizer m => Act.into maximizer m Maximizer.close
  | function _ => pure ()

end Processor

end Dialectical
