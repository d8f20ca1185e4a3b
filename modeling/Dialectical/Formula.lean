/-!
# Propositional formulas

Formulas over an arbitrary type of leaves. Acceptance conditions have arguments as their leaves;
the same formula over literals is what the clausal encodings name.

The five binary connectives are one constructor and a truth table (`Connective.apply`), so that a
statement about all connectives is one statement about Boolean functions.

## Main definitions

* `Formula.eval`: the value of a formula under a valuation of its leaves.
* `Formula.leaves`: the leaves that occur, each once, in order of first occurrence.
* `Formula.render`: the text of a formula, given the text of its leaves.
-/

namespace Dialectical

/-! ### Connectives -/

/-- The binary connectives. -/
inductive Connective where
  | and
  | or
  | imp
  | iff
  | xor
  deriving DecidableEq, Repr

namespace Connective

/-- The truth table of a connective. -/
def apply : Connective → Bool → Bool → Bool
  | and, a, b => a && b
  | or, a, b => a || b
  | imp, a, b => !a || b
  | iff, a, b => a == b
  | xor, a, b => a != b

/-- The name of a connective in the text of a formula. -/
def name : Connective → String
  | and => "and"
  | or => "or"
  | imp => "imp"
  | iff => "iff"
  | xor => "xor"

/-- What a formula with this connective at its root is called, with its article. -/
def noun : Connective → String
  | and => "a conjunction"
  | or => "a disjunction"
  | imp => "an implication"
  | iff => "an equivalence"
  | xor => "an exclusive disjunction"

end Connective

/-! ### Formulas -/

/-- Propositional formulas with leaves in `α`. -/
inductive Formula (α : Type) where
  /-- The tautology. -/
  | top
  /-- The contradiction. -/
  | bot
  /-- A leaf. -/
  | leaf (a : α)
  /-- A negation. -/
  | neg (φ : Formula α)
  /-- Two formulas joined by a binary connective. -/
  | binary (op : Connective) (φ ψ : Formula α)
  deriving DecidableEq, Repr

namespace Formula

variable {α β : Type}

/-- The value of a formula under a valuation of its leaves. -/
def eval (v : α → Bool) : Formula α → Bool
  | top => true
  | bot => false
  | leaf a => v a
  | neg φ => !φ.eval v
  | binary op φ ψ => op.apply (φ.eval v) (ψ.eval v)

/-- The same formula over other leaves. -/
def map (f : α → β) : Formula α → Formula β
  | top => top
  | bot => bot
  | leaf a => leaf (f a)
  | neg φ => neg (φ.map f)
  | binary op φ ψ => binary op (φ.map f) (ψ.map f)

/-- The leaves of a formula from left to right, with repetitions. -/
def occurrences : Formula α → List α
  | top => []
  | bot => []
  | leaf a => [a]
  | neg φ => φ.occurrences
  | binary _ φ ψ => φ.occurrences ++ ψ.occurrences

/-- The leaves of a formula, each once, in order of first occurrence from left to right. -/
def leaves [BEq α] (φ : Formula α) : List α :=
  φ.occurrences.eraseDups

/-- The number of constants and binary connectives of a formula: the nodes that need a name of
their own when the formula is written as clauses. -/
def gates : Formula α → Nat
  | top => 1
  | bot => 1
  | leaf _ => 0
  | neg φ => φ.gates
  | binary _ φ ψ => φ.gates + ψ.gates + 1

/-- Replaces each leaf by the result of a fallible function, or fails as the first leaf that does.
-/
def traverse {ε : Type} (f : α → Except ε β) : Formula α → Except ε (Formula β)
  | top => .ok top
  | bot => .ok bot
  | leaf a => leaf <$> f a
  | neg φ => neg <$> φ.traverse f
  | binary op φ ψ => do return binary op (← φ.traverse f) (← ψ.traverse f)

/-- The text of a formula. Constants are `c(v)` and `c(f)`; operators are written in front of
their operands, which stand in parentheses with a comma and no blank between them. -/
def render (name : α → String) : Formula α → String
  | top => "c(v)"
  | bot => "c(f)"
  | leaf a => name a
  | neg φ => "neg(" ++ φ.render name ++ ")"
  | binary op φ ψ => op.name ++ "(" ++ φ.render name ++ "," ++ ψ.render name ++ ")"

/-! ### Leaves -/

theorem mem_leaves [BEq α] [LawfulBEq α] {a : α} {φ : Formula α} :
    a ∈ φ.leaves ↔ a ∈ φ.occurrences :=
  List.mem_eraseDups

theorem occurrences_map (f : α → β) (φ : Formula α) :
    (φ.map f).occurrences = φ.occurrences.map f := by
  induction φ with
  | top | bot | leaf => rfl
  | neg φ ih => exact ih
  | binary op φ ψ ihφ ihψ => simp [map, occurrences, ihφ, ihψ]

theorem gates_map (f : α → β) (φ : Formula α) : (φ.map f).gates = φ.gates := by
  induction φ with
  | top | bot | leaf => rfl
  | neg φ ih => exact ih
  | binary op φ ψ ihφ ihψ => simp [map, gates, ihφ, ihψ]

theorem eval_map (f : α → β) (v : β → Bool) (φ : Formula α) :
    (φ.map f).eval v = φ.eval (v ∘ f) := by
  induction φ with
  | top | bot | leaf => rfl
  | neg φ ih => simp [map, eval, ih]
  | binary op φ ψ ihφ ihψ => simp [map, eval, ihφ, ihψ]

/-- The value of a formula depends on its leaves only. -/
theorem eval_congr {v w : α → Bool} (φ : Formula α) (h : ∀ a ∈ φ.occurrences, v a = w a) :
    φ.eval v = φ.eval w := by
  induction φ with
  | top | bot => rfl
  | leaf a => exact h a (by simp [occurrences])
  | neg φ ih => simp [eval, ih h]
  | binary op φ ψ ihφ ihψ =>
    simp only [occurrences, List.mem_append] at h
    simp [eval, ihφ fun a ha ↦ h a (.inl ha), ihψ fun a ha ↦ h a (.inr ha)]

end Formula

/-- An acceptance condition is a formula over the identifiers of arguments. -/
abbrev Condition := Formula Nat

/-- The text of a condition, in which the argument with identifier `a` is `#a`. -/
def Condition.text (c : Condition) : String :=
  c.render fun a ↦ "#" ++ toString a

end Dialectical
