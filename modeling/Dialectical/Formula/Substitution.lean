import Dialectical.Formula

/-!
# Partial evaluation of formulas

`Formula.substitute` replaces the leaves to which a partial valuation gives a value and simplifies
on the way up: constants disappear, double negations cancel, and a connective between two identical
formulas is resolved.

All of the simplification is one observation. A binary connective of which one operand is known, or
whose two operands are the same formula, is a function of **one** truth value, and there are four of
those: the two constants, the identity and the negation. `Formula.unary` applies such a function to
a formula, and `Formula.join` finds which one is due.

## Main statements

* `Formula.eval_substitute`: partial evaluation keeps the meaning.
* `Formula.occurrences_substitute`: what is left of a formula holds only undefined leaves of it.
-/

namespace Dialectical.Formula

variable {α : Type}

/-! ### Simplifying constructors -/

/-- Negation of a formula: a constant is switched, a negation is removed. -/
def negated : Formula α → Formula α
  | top => bot
  | bot => top
  | neg φ => φ
  | φ => neg φ

/-- Applies a function of one truth value to a formula. -/
def unary (f : Bool → Bool) (φ : Formula α) : Formula α :=
  match f false, f true with
  | false, false => bot
  | true, true => top
  | false, true => φ
  | true, false => φ.negated

/-- The value of a formula that is a constant. -/
def constant? : Formula α → Option Bool
  | top => some true
  | bot => some false
  | _ => none

/-- Joins two simplified formulas by a connective. If one of them is a constant, or if they are the
same formula, the result is a function of one truth value and no connective is needed. -/
def join [DecidableEq α] (op : Connective) (φ ψ : Formula α) : Formula α :=
  match φ.constant?, ψ.constant? with
  | some a, _ => ψ.unary (op.apply a)
  | none, some b => φ.unary (op.apply · b)
  | none, none => if φ = ψ then φ.unary fun a ↦ op.apply a a else binary op φ ψ

/-- The formula that is left when the leaves defined by a partial valuation have their values. -/
def substitute [DecidableEq α] (v : α → Option Bool) : Formula α → Formula α
  | top => top
  | bot => bot
  | leaf a =>
    match v a with
    | some true => top
    | some false => bot
    | none => leaf a
  | neg φ => (φ.substitute v).negated
  | binary op φ ψ => join op (φ.substitute v) (ψ.substitute v)

/-! ### Meaning -/

theorem eval_negated (w : α → Bool) (φ : Formula α) : φ.negated.eval w = !φ.eval w := by
  cases φ <;> simp [negated, eval]

theorem eval_unary (w : α → Bool) (f : Bool → Bool) (φ : Formula α) :
    (φ.unary f).eval w = f (φ.eval w) := by
  unfold unary
  split <;> cases h : φ.eval w <;> simp_all [eval, eval_negated]

theorem eval_of_constant? {φ : Formula α} {b : Bool} (h : φ.constant? = some b) (w : α → Bool) :
    φ.eval w = b := by
  cases φ <;> simp_all [constant?, eval]

theorem eval_join [DecidableEq α] (w : α → Bool) (op : Connective) (φ ψ : Formula α) :
    (join op φ ψ).eval w = op.apply (φ.eval w) (ψ.eval w) := by
  unfold join
  split
  next a _ h => rw [eval_unary, eval_of_constant? h]
  next b _ h => rw [eval_unary, eval_of_constant? h]
  next =>
    split
    next h => rw [eval_unary, h]
    next => rfl

/-- What is left after substitution means what the formula means when its undefined leaves are
completed. -/
theorem eval_substitute [DecidableEq α] (v : α → Option Bool) (w : α → Bool) (φ : Formula α) :
    (φ.substitute v).eval w = φ.eval fun a ↦ (v a).getD (w a) := by
  induction φ with
  | top | bot => rfl
  | leaf a => cases h : v a with
    | none => simp [substitute, eval, h]
    | some b => cases b <;> simp [substitute, eval, h]
  | neg φ ih => simp [substitute, eval, eval_negated, ih]
  | binary op φ ψ ihφ ihψ => simp [substitute, eval, eval_join, ihφ, ihψ]

/-! ### Leaves -/

theorem occurrences_negated (φ : Formula α) : φ.negated.occurrences = φ.occurrences := by
  cases φ <;> simp [negated, occurrences]

theorem mem_occurrences_of_unary {f : Bool → Bool} {φ : Formula α} {a : α}
    (h : a ∈ (φ.unary f).occurrences) : a ∈ φ.occurrences := by
  unfold unary at h
  split at h <;> simp_all [occurrences, occurrences_negated]

theorem mem_occurrences_of_join [DecidableEq α] {op : Connective} {φ ψ : Formula α} {a : α}
    (h : a ∈ (join op φ ψ).occurrences) : a ∈ φ.occurrences ∨ a ∈ ψ.occurrences := by
  unfold join at h
  split at h
  next => exact .inr (mem_occurrences_of_unary h)
  next => exact .inl (mem_occurrences_of_unary h)
  next =>
    split at h
    next => exact .inl (mem_occurrences_of_unary h)
    next => exact List.mem_append.1 h

/-- Substitution leaves only leaves of the formula to which the valuation gives no value. -/
theorem occurrences_substitute [DecidableEq α] {v : α → Option Bool} {φ : Formula α} {a : α}
    (h : a ∈ (φ.substitute v).occurrences) : a ∈ φ.occurrences ∧ v a = none := by
  induction φ with
  | top | bot => simp [substitute, occurrences] at h
  | leaf b =>
    unfold substitute at h
    split at h <;> simp_all [occurrences]
  | neg φ ih => exact ih (by simpa [substitute, occurrences_negated] using h)
  | binary op φ ψ ihφ ihψ =>
    rcases mem_occurrences_of_join h with h | h
    · exact ⟨by simp [occurrences, (ihφ h).1], (ihφ h).2⟩
    · exact ⟨by simp [occurrences, (ihψ h).1], (ihψ h).2⟩

end Dialectical.Formula
