import Dialectical.Sat.Splitting

/-!
# Least and greatest models

Engines that answer with the first model in lexicographic order. The variables get their values in
increasing order. Each of them gets the preferred value if a model allows it, which is settled
without a search as long as the model at hand has this value or leaves the variable open.

## Main definitions

* `settle`: the values of the first model.
* `Engine.least`, `Engine.greatest`, `Engine.leastOccurring`: the engines.
-/

namespace Dialectical.Sat

/-- The values of the next `n` variables from `v` on in the first model, in lexicographic order with
`first` before its opposite, that makes the known literals true and satisfies the open clauses. The
literals of some such model are given. -/
def settle (first : Bool) : (n : Nat) → (v : Variable) → (model known : List Literal) →
    List Clause → List Bool
  | 0, _, _, _, _ => []
  | n + 1, v, model, known, cs =>
    let preferred : Literal := ⟨v, first⟩
    if known.contains preferred then
      first :: settle first n (v + 1) model known cs
    else if known.contains preferred.negate then
      (!first) :: settle first n (v + 1) model known cs
    else if model.contains preferred.negate then
      match (commit preferred known cs).bind fun r ↦ (split r.1 r.2).map (·, r) with
      | some (model, r) => first :: settle first n (v + 1) model r.1 r.2
      | none =>
        let r := (commit preferred.negate known cs).getD (known, cs)
        (!first) :: settle first n (v + 1) model r.1 r.2
    else
      let r := (commit preferred known cs).getD (known, cs)
      first :: settle first n (v + 1) model r.1 r.2

/-- The first model of a problem, as the list of its values. -/
def firstModel (first : Bool) (p : Problem) : Option (List Bool) :=
  (initial p).bind fun r ↦
    (split r.1 r.2).map fun model ↦ settle first (span p) 0 model r.1 r.2

/-- Whether a variable occurs in a clause or is assumed. -/
def occurs (p : Problem) (v : Variable) : Bool :=
  p.assumptions.any (·.var == v) || p.clauses.any (·.any (·.var == v))

/-- Answers with the first model, in which every variable has a value. -/
def answerAll (first : Bool) (p : Problem) : Answer :=
  match firstModel first p with
  | some values => .satisfiable ⟨values.map some⟩
  | none => .unsatisfiable

/-- Answers with the first model, and leaves the variables open that do not occur in the problem. -/
def answerOccurring (first : Bool) (p : Problem) : Answer :=
  match firstModel first p with
  | some values => .satisfiable ⟨values.mapIdx fun v b ↦ if occurs p v then some b else none⟩
  | none => .unsatisfiable

end Dialectical.Sat

namespace Dialectical.Engine

/-- Answers with the least model, false before true. -/
def least : Engine where
  countsAssumed := false
  listeners := []
  refuses _ := false
  answer _ := Sat.answerAll false

/-- Answers with the greatest model, true before false. -/
def greatest : Engine where
  countsAssumed := false
  listeners := []
  refuses _ := false
  answer _ := Sat.answerAll true

/-- Answers with the least model of the variables that occur in the problem, and counts assumed
variables as known, as solvers behind the IPASIR interface do. -/
def leastOccurring : Engine where
  countsAssumed := true
  listeners := []
  refuses _ := false
  answer _ := Sat.answerOccurring false

end Dialectical.Engine
