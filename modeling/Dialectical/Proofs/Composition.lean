import Dialectical.Proofs.Operator
import Dialectical.Proofs.Simplification

/-!
# Substitutions compose

A formula is simplified while leaves are replaced, and the result can have other leaves replaced
later. That nothing is simplified too early is an equation of **formulas**, not of their values: two
substitutions one after the other give what one of them gives that knows both
(`Formula.substitute_substitute`).

Each simplifying constructor commutes with substitution, whatever it is applied to. For a negation
that is removed this rests on the shape of what substitution gives: negating it twice changes
nothing (`Formula.IsSimplified.negated_negated`). A connective with a known operand, or with two
equal operands, stays one when more leaves are replaced, and the function of one truth value that it
is does not depend on the way in which this is found (`Formula.join_of_right`, `Formula.join_self`).

So reducts compose as well: what two interpretations reject one after the other can be rejected at
once (`Framework.reject_reject`).
-/

namespace Dialectical

namespace Formula

variable {α : Type} {φ ψ : Formula α} {f : Bool → Bool} {a : Bool}

/-! ### Simplifying constructors -/

/-- **A simplified formula is its double negation.** -/
theorem IsSimplified.negated_negated [DecidableEq α] (h : φ.IsSimplified) :
    φ.negated.negated = φ := by
  rcases h with rfl | rfl | h
  · rfl
  · rfl
  · cases φ with
    | top | bot | leaf | binary => rfl
    | neg ψ =>
      obtain ⟨hroot, hψ⟩ := isReduced_neg.1 h
      cases ψ with
      | top => exact absurd hψ not_isReduced_top
      | bot => exact absurd hψ not_isReduced_bot
      | neg => exact Bool.noConfusion hroot
      | leaf | binary => rfl

/-- The constant formula with a value. -/
def ofBool (b : Bool) : Formula α := if b then top else bot

/-- A formula is recognized as a constant only by its form. -/
theorem constant?_eq_some_iff : φ.constant? = some a ↔ φ = ofBool a := by
  cases φ <;> cases a <;> simp [constant?, ofBool]

/-- Of a constant the value is all that counts. -/
theorem unary_ofBool (f : Bool → Bool) (a : Bool) :
    (ofBool a : Formula α).unary f = ofBool (f a) := by
  unfold unary
  cases a <;> cases f false <;> cases f true <;> rfl

variable [DecidableEq α] {op : Connective}

/-- With a constant on the left, a connective is one of the four operations on the right operand. -/
theorem join_of_left (h : φ.constant? = some a) : join op φ ψ = ψ.unary (op.apply a) := by
  rw [join, h]

/-- It does not matter which operand is looked at first. -/
theorem join_of_right (h : ψ.constant? = some a) : join op φ ψ = φ.unary (op.apply · a) := by
  cases hφ : φ.constant? with
  | none => rw [join, hφ, h]
  | some b =>
    rw [join_of_left hφ, constant?_eq_some_iff.1 hφ, constant?_eq_some_iff.1 h, unary_ofBool,
      unary_ofBool]

/-- Two equal operands may be constants. -/
theorem join_self : join op φ φ = φ.unary fun a ↦ op.apply a a := by
  cases hφ : φ.constant? with
  | none => rw [join, hφ, if_pos rfl]
  | some a => rw [join_of_left hφ, constant?_eq_some_iff.1 hφ, unary_ofBool, unary_ofBool]

/-! ### Substitution -/

variable {v w : α → Option Bool}

/-- Constants stay constants. -/
theorem constant?_substitute (h : φ.constant? = some a) : (φ.substitute w).constant? = some a := by
  rw [constant?_eq_some_iff.1 h]
  cases a <;> rfl

/-- A negation that was removed comes back, and is removed again. -/
theorem substitute_negated : φ.negated.substitute w = (φ.substitute w).negated := by
  cases φ with
  | top | bot | leaf | binary => rfl
  | neg ψ => exact (isSimplified_substitute w ψ).negated_negated.symm

/-- It does not matter if an operation on one operand is simplified before or after a substitution.
-/
theorem substitute_unary : (φ.unary f).substitute w = (φ.substitute w).unary f := by
  unfold unary
  split
  · rfl
  · rfl
  · rfl
  · exact substitute_negated

/-- A connective that is not needed is not needed later either. -/
theorem substitute_join :
    (join op φ ψ).substitute w = join op (φ.substitute w) (ψ.substitute w) := by
  cases hφ : φ.constant? with
  | some a => rw [join_of_left hφ, join_of_left (constant?_substitute hφ), substitute_unary]
  | none =>
    cases hψ : ψ.constant? with
    | some a => rw [join_of_right hψ, join_of_right (constant?_substitute hψ), substitute_unary]
    | none =>
      by_cases heq : φ = ψ
      · rw [heq, join_self, join_self, substitute_unary]
      · rw [join, hφ, hψ]
        dsimp only
        rw [if_neg heq, substitute]

/-- **Two substitutions are one**, which gives a leaf the value of the first if it has one, and that
of the second if it has none. -/
theorem substitute_substitute (v w : α → Option Bool) (φ : Formula α) :
    (φ.substitute v).substitute w = φ.substitute fun a ↦ (v a).or (w a) := by
  induction φ with
  | top | bot => rfl
  | leaf a => cases hv : v a with
    | none => simp [substitute, hv]
    | some b => cases b <;> simp [substitute, hv]
  | neg φ ih => rw [substitute, substitute_negated, ih, substitute]
  | binary op φ ψ ihφ ihψ => rw [substitute, substitute_join, ihφ, ihψ, substitute]

/-- A second time there is nothing to replace. -/
theorem substitute_self (v : α → Option Bool) (φ : Formula α) :
    (φ.substitute v).substitute v = φ.substitute v := by
  rw [substitute_substitute]
  congr
  funext a
  exact Option.or_self

end Formula

/-! ### Reducts -/

namespace Interpretation

/-- Some interpretation rejects what one of two rejects. -/
theorem exists_isUnsatisfied_or {n : Nat} {I J : Interpretation} (hI : I.size = n)
    (hJ : J.size = n) : ∃ K : Interpretation, K.size = n ∧
      ∀ a, K.isUnsatisfied a = (I.isUnsatisfied a || J.isUnsatisfied a) := by
  obtain ⟨K, hK, hdecides⟩ := exists_decides_iff n
    (p := fun a b ↦ b = false ∧ (I.Decides a false ∨ J.Decides a false))
    fun _ _ _ hb hc ↦ hb.1.trans hc.1.symm
  refine ⟨K, hK, fun a ↦ ?_⟩
  rw [Bool.eq_iff_iff, Bool.or_eq_true, isUnsatisfied_iff, isUnsatisfied_iff, isUnsatisfied_iff,
    hdecides]
  constructor
  · exact fun h ↦ h.2.2
  · exact fun h ↦ ⟨h.elim (fun h ↦ hI ▸ h.lt_size) fun h ↦ hJ ▸ h.lt_size, rfl, h⟩

end Interpretation

namespace Framework

/-- What is rejected at once. -/
theorem reductCondition_reductCondition (off off' : Nat → Bool) (a : Nat) (c : Condition) :
    reductCondition off' a (reductCondition off a c) =
      reductCondition (fun b ↦ off b || off' b) a c := by
  cases hoff : off a with
  | true => cases hoff' : off' a <;> simp [reductCondition, hoff, hoff', Formula.substitute]
  | false =>
    cases hoff' : off' a with
    | true => simp [reductCondition, hoff']
    | false =>
      simp only [reductCondition, hoff, hoff', Bool.or_self, Bool.false_eq_true, if_false]
      rw [Formula.substitute_substitute]
      congr
      funext b
      by_cases hb : off b <;> simp [hb]

/-- **Rejecting some arguments and then others** is rejecting all of them. -/
theorem reject_reject (F : Framework) (off off' : Nat → Bool) :
    (F.reject off).reject off' = F.reject fun a ↦ off a || off' a := by
  have hconditions : ((F.reject off).reject off').conditions =
      (F.reject fun a ↦ off a || off' a).conditions := by
    show (F.conditions.mapIdx _).mapIdx _ = F.conditions.mapIdx _
    rw [List.mapIdx_mapIdx]
    congr
    funext a c
    exact reductCondition_reductCondition off off' a c
  unfold reject at hconditions ⊢
  congr

/-- The reduct by an interpretation of the arguments is there. -/
theorem reduct_eq_ok {F : Framework} {I : Interpretation} (hI : I.size = F.size) :
    F.reduct I = .ok (F.reject I.isUnsatisfied) :=
  if_pos hI

/-- **Substitutions and reducts compose.** Replacing the leaves of a formula in two steps gives the
same formula as replacing them in one, so doing it again changes nothing. A reduct of a reduct is
the reduct by any interpretation that rejects what one of the two rejects, and there is such an
interpretation. -/
theorem substitutions_compose :
    (∀ (c : Condition) (v w : Nat → Option Bool),
      (c.substitute v).substitute w = c.substitute fun a ↦ (v a).or (w a)) ∧
    (∀ (c : Condition) (v : Nat → Option Bool), (c.substitute v).substitute v = c.substitute v) ∧
    ∀ (F : Framework) (I J : Interpretation), I.size = F.size → J.size = F.size →
      (∃ K : Interpretation, K.size = F.size ∧
        ∀ a, K.isUnsatisfied a = (I.isUnsatisfied a || J.isUnsatisfied a)) ∧
      ∀ K : Interpretation, K.size = F.size →
        (∀ a, K.isUnsatisfied a = (I.isUnsatisfied a || J.isUnsatisfied a)) →
        ∃ R R' : Framework, F.reduct I = .ok R ∧ R.reduct J = .ok R' ∧ F.reduct K = .ok R' := by
  refine ⟨fun c v w ↦ Formula.substitute_substitute v w c, fun c v ↦ Formula.substitute_self v c,
    fun F I J hI hJ ↦ ⟨Interpretation.exists_isUnsatisfied_or hI hJ, fun K hK hor ↦ ?_⟩⟩
  have hJ' : J.size = (F.reject I.isUnsatisfied).size := hJ
  refine ⟨_, _, reduct_eq_ok hI, reduct_eq_ok hJ', ?_⟩
  rw [reduct_eq_ok hK, reject_reject, ← funext hor]

/-- Three arguments. The first one is accepted if the second one implies the third one exactly when
it is rejected itself; the other two support themselves. -/
def foldedImplication : Framework where
  labels := ⟨["x", "y", "z"], by decide⟩
  conditions := [.binary .iff (.binary .imp (.leaf 1) (.leaf 2)) (.neg (.leaf 1)), .leaf 1, .leaf 2]
  length_conditions := rfl
  lt_size_of_mem := by simp [Formula.occurrences, LabelSet.size]

/-- The case of this framework, when the third argument is rejected first: the implication becomes a
negation, which is also the other operand. -/
theorem substitutions_compose_foldedImplication :
    (⟨[.undecided, .undecided, .unsatisfied]⟩ : Interpretation).size = foldedImplication.size ∧
    (⟨[.satisfied, .unsatisfied, .undecided]⟩ : Interpretation).size = foldedImplication.size ∧
    ∃ R R' : Framework,
      foldedImplication.reduct ⟨[.undecided, .undecided, .unsatisfied]⟩ = .ok R ∧
      R.reduct ⟨[.satisfied, .unsatisfied, .undecided]⟩ = .ok R' ∧
      foldedImplication.reduct ⟨[.undecided, .unsatisfied, .unsatisfied]⟩ = .ok R' ∧
      R'.conditions = [.top, .bot, .bot] := by
  have hor : ∀ a, (⟨[.undecided, .unsatisfied, .unsatisfied]⟩ : Interpretation).isUnsatisfied a =
      ((⟨[.undecided, .undecided, .unsatisfied]⟩ : Interpretation).isUnsatisfied a ||
        (⟨[.satisfied, .unsatisfied, .undecided]⟩ : Interpretation).isUnsatisfied a)
    | 0 | 1 | 2 => rfl
    | _ + 3 => rfl
  obtain ⟨R, R', hR, hR', hK⟩ :=
    (substitutions_compose.2.2 foldedImplication _ _ rfl rfl).2 _ rfl hor
  refine ⟨rfl, rfl, R, R', hR, hR', hK, ?_⟩
  obtain rfl := Except.ok.inj hK
  decide

end Framework

end Dialectical
