import Dialectical.Formula.Substitution

/-!
# What substitution leaves is simplified

Substitution simplifies on the way up, at each node once, and compares the operands of a connective
but does not look into them. That this is enough is a statement about the result: it is a constant,
or there is nothing left to simplify anywhere in it (`Formula.IsSimplified`). No step undoes what an
earlier one did: a negation is only put in front of a formula that is none (`IsReduced.negated`),
and a connective is kept only between operands that are reduced and different
(`isSimplified_join`).
-/

namespace Dialectical.Formula

variable {α : Type}

/-! ### Simplified formulas -/

/-- A formula and the formulas that it is built from. -/
def parts : Formula α → List (Formula α)
  | top => [top]
  | bot => [bot]
  | leaf a => [leaf a]
  | neg φ => neg φ :: φ.parts
  | binary op φ ψ => binary op φ ψ :: (φ.parts ++ ψ.parts)

variable [DecidableEq α]

/-- There is something to simplify at the root: it is a constant, a negation of a negation, or a
connective between a formula and itself. -/
def isReducible : Formula α → Bool
  | top => true
  | bot => true
  | leaf _ => false
  | neg (neg _) => true
  | neg _ => false
  | binary _ φ ψ => φ = ψ

/-- There is nothing to simplify in the formula: no constant, no negation of a negation, and no
connective between a formula and itself. -/
def IsReduced (φ : Formula α) : Prop := ∀ ψ ∈ φ.parts, ψ.isReducible = false

/-- The formula is a constant, or there is nothing to simplify in it. -/
def IsSimplified (φ : Formula α) : Prop := φ = top ∨ φ = bot ∨ φ.IsReduced

instance (φ : Formula α) : Decidable φ.IsReduced :=
  inferInstanceAs (Decidable (∀ ψ ∈ φ.parts, ψ.isReducible = false))

instance (φ : Formula α) : Decidable φ.IsSimplified :=
  inferInstanceAs (Decidable (φ = top ∨ φ = bot ∨ φ.IsReduced))

variable {φ ψ : Formula α} {op : Connective}

theorem not_isReduced_top : ¬(top : Formula α).IsReduced := by
  simp [IsReduced, parts, isReducible]

theorem not_isReduced_bot : ¬(bot : Formula α).IsReduced := by
  simp [IsReduced, parts, isReducible]

theorem isReduced_leaf (a : α) : (leaf a).IsReduced := by
  simp [IsReduced, parts, isReducible]

/-- A negation is reduced iff no rule applies to it and its argument is. -/
theorem isReduced_neg : φ.neg.IsReduced ↔ φ.neg.isReducible = false ∧ φ.IsReduced :=
  List.forall_mem_cons

/-- A connective is reduced iff its sides differ and both are. -/
theorem isReduced_binary :
    (binary op φ ψ).IsReduced ↔ φ ≠ ψ ∧ φ.IsReduced ∧ ψ.IsReduced := by
  rw [IsReduced, parts, List.forall_mem_cons, List.forall_mem_append, isReducible,
    decide_eq_false_iff_not]
  rfl

/-! ### Simplifying constructors -/

/-- A simplified formula that is not a constant is reduced. -/
theorem IsSimplified.isReduced (h : φ.IsSimplified) (hφ : φ.constant? = none) : φ.IsReduced := by
  rcases h with rfl | rfl | h
  · exact absurd hφ (by simp [constant?])
  · exact absurd hφ (by simp [constant?])
  · exact h

/-- A negation is removed from a negation, and is put in front of what is none. -/
theorem IsReduced.negated (h : φ.IsReduced) : φ.negated.IsReduced := by
  cases φ with
  | top => exact absurd h not_isReduced_top
  | bot => exact absurd h not_isReduced_bot
  | leaf a => exact isReduced_neg.2 ⟨rfl, h⟩
  | neg φ => exact (isReduced_neg.1 h).2
  | binary op φ ψ => exact isReduced_neg.2 ⟨rfl, h⟩

/-- Negating what is simplified keeps it so. -/
theorem IsSimplified.negated (h : φ.IsSimplified) : φ.negated.IsSimplified := by
  rcases h with rfl | rfl | h
  · exact .inr (.inl rfl)
  · exact .inl rfl
  · exact .inr (.inr h.negated)

/-- Every function of one truth value keeps a formula simplified. -/
theorem IsSimplified.unary (h : φ.IsSimplified) (f : Bool → Bool) : (φ.unary f).IsSimplified := by
  unfold Formula.unary
  split
  · exact .inr (.inl rfl)
  · exact .inl rfl
  · exact h
  · exact h.negated

/-- **A connective is kept only where it is needed.** -/
theorem isSimplified_join (hφ : φ.IsSimplified) (hψ : ψ.IsSimplified) :
    (join op φ ψ).IsSimplified := by
  unfold join
  split
  next => exact hψ.unary _
  next => exact hφ.unary _
  next hnoneφ hnoneψ =>
    split
    next => exact hφ.unary _
    next hne =>
      have hoperands := And.intro (hφ.isReduced hnoneφ) (hψ.isReduced hnoneψ)
      exact .inr (.inr (isReduced_binary.2 ⟨hne, hoperands⟩))

/-! ### Substitution -/

/-- **Nothing is left to simplify**, whatever the formula was. -/
theorem isSimplified_substitute (v : α → Option Bool) (φ : Formula α) :
    (φ.substitute v).IsSimplified := by
  induction φ with
  | top => exact .inl rfl
  | bot => exact .inr (.inl rfl)
  | leaf a =>
    unfold substitute
    split
    · exact .inl rfl
    · exact .inr (.inl rfl)
    · exact .inr (.inr (isReduced_leaf a))
  | neg φ ih => exact ih.negated
  | binary op φ ψ ihφ ihψ => exact isSimplified_join ihφ ihψ

/-- **Partial evaluation.** What is left of a formula has the value that the formula has when the
partial valuation is completed, speaks of leaves of the formula that have no value only, and is
simplified. -/
theorem substitute_simplifies (v : α → Option Bool) (φ : Formula α) :
    (∀ w, (φ.substitute v).eval w = φ.eval fun a ↦ (v a).getD (w a)) ∧
    (∀ a ∈ (φ.substitute v).occurrences, a ∈ φ.occurrences ∧ v a = none) ∧
    (φ.substitute v).IsSimplified :=
  ⟨fun w ↦ eval_substitute v w φ, fun _ ↦ occurrences_substitute, isSimplified_substitute v φ⟩

/-- Formulas are not simplified when they are built. -/
example : ¬(neg (neg (leaf 0))).IsSimplified := by decide

/-- Operands that become the same formula on the way are found. -/
example : substitute (fun a ↦ if a = 1 then some true else none)
    (.binary .xor (.binary .and (.leaf 0) (.leaf 1)) (.neg (.neg (.leaf 0)))) = bot := by decide

end Dialectical.Formula
