import Dialectical.Framework
import Dialectical.Proofs.Information
import Mathlib.Data.List.Sublists

/-!
# The characteristic operator and the semantics it defines

What the models of a framework are, with no mention of how they are found. Everything is said in
terms of one question: which values can the condition of an argument take under the completions of
an interpretation? It is *forced* to a value if all completions give it this value
(`Framework.Forces`), and *allowed* to take a value if one of them does (`Framework.Allows`).

The characteristic operator decides exactly the arguments whose conditions are forced. It is
monotone (`characteristic_mono`), since a larger interpretation has fewer completions, and
admissible interpretations are those that it does not retract (`admissible_iff`). Iterating it from
below therefore reaches a least fixpoint (`exists_isGround`).

Whether a condition is forced is decidable, by going through the values of its arguments, so the
operator can be evaluated.
-/

namespace Dialectical

namespace Framework

/-! ### Forced and allowed values -/

/-- Every completion of the interpretation gives the condition of the argument this value. -/
def Forces (F : Framework) (I : Interpretation) (a : Nat) (b : Bool) : Prop :=
  ∀ v, I.CompletedBy v → (F.condition a).eval v = b

/-- Some completion of the interpretation gives the condition of the argument this value. -/
def Allows (F : Framework) (I : Interpretation) (a : Nat) (b : Bool) : Prop :=
  ∃ v, I.CompletedBy v ∧ (F.condition a).eval v = b

variable {F : Framework} {I J : Interpretation} {a : Nat} {b c : Bool}

/-- What occurs in a condition is a link between arguments. -/
theorem lt_size_of_mem_occurrences {r : Nat} (h : r ∈ (F.condition a).occurrences) :
    r < F.size ∧ a < F.size := by
  unfold condition at h
  rcases hc : F.conditions[a]? with _ | c
  · simp [hc, Formula.occurrences] at h
  · rw [hc, Option.getD_some] at h
    refine ⟨F.lt_size_of_mem c (List.mem_of_getElem? hc) r h, ?_⟩
    rw [size, ← F.length_conditions]
    exact (List.getElem?_eq_some_iff.1 hc).1

/-- A condition looks at its parents only, so their values are all that has to be tried. -/
theorem forces_iff_sublists : F.Forces I a b ↔ ∀ ts ∈ (F.parents a).sublists,
    (F.condition a).eval (I.withDefault fun r ↦ decide (r ∈ ts)) = b := by
  refine ⟨fun h ts _ ↦ h _ (I.completedBy_withDefault _), fun h v hv ↦ ?_⟩
  rw [← h _ (List.mem_sublists.2 (List.filter_sublist (p := v)))]
  refine Formula.eval_congr _ fun r hr ↦ ?_
  -- among the parents, the choice of those that are true is the valuation
  have hmem : decide (r ∈ (F.parents a).filter v) = v r := by
    simp [List.mem_filter, mem_parents.2 hr]
  rw [Interpretation.withDefault_eq fun c hc ↦ hmem.trans (hv r c hc), hmem]

instance (F : Framework) (I : Interpretation) (a : Nat) (b : Bool) : Decidable (F.Forces I a b) :=
  decidable_of_iff _ forces_iff_sublists.symm

/-- What is forced stays forced as more is decided. -/
theorem Forces.mono (h : F.Forces I a b) (hle : I ≤ J) : F.Forces J a b :=
  fun v hv ↦ h v (hv.mono hle)

/-- At most one value is forced, since there is a completion. -/
theorem Forces.unique (h : F.Forces I a b) (h' : F.Forces I a c) : b = c := by
  have hv := I.completedBy_withDefault fun _ ↦ false
  rw [← h _ hv, ← h' _ hv]

/-- And what is forced is allowed. -/
theorem Forces.allows (h : F.Forces I a b) : F.Allows I a b :=
  ⟨_, I.completedBy_withDefault fun _ ↦ false, h _ (I.completedBy_withDefault _)⟩

/-- A value is not forced if and only if the other one is allowed. -/
theorem not_forces_iff : ¬F.Forces I a b ↔ F.Allows I a (!b) := by
  unfold Forces Allows
  push Not
  refine exists_congr fun v ↦ and_congr_right fun _ ↦ ?_
  cases b <;> cases (F.condition a).eval v <;> simp

theorem not_allows_iff : ¬F.Allows I a b ↔ F.Forces I a (!b) := by
  rw [← not_not (a := F.Forces I a (!b)), not_forces_iff, Bool.not_not]

/-- A valuation that keeps the values of the decided parents is a completion, as far as the
condition looks. -/
theorem exists_completion {w : Nat → Bool} (hw : ∀ r ∈ F.parents a, ∀ c, I.Decides r c → w r = c) :
    ∃ v, I.CompletedBy v ∧ (F.condition a).eval v = (F.condition a).eval w := by
  refine ⟨I.withDefault w, I.completedBy_withDefault w, ?_⟩
  exact Formula.eval_congr _ fun r hr ↦ Interpretation.withDefault_eq (hw r (mem_parents.2 hr))

/-! ### The operator -/

/-- The interpretation that decides exactly what an interpretation forces. -/
def characteristic (F : Framework) (I : Interpretation) : Interpretation :=
  ⟨F.arguments.map fun a ↦
    if F.Forces I a true then .satisfied
    else if F.Forces I a false then .unsatisfied
    else .undecided⟩

@[simp]
theorem size_characteristic (F : Framework) (I : Interpretation) :
    (F.characteristic I).size = F.size := by
  simp [characteristic, Interpretation.size, arguments]

/-- The operator decides what is forced: no argument is forced to both values, so it does not matter
which is tried first. -/
theorem decides_characteristic (ha : a < F.size) :
    (F.characteristic I).Decides a b ↔ F.Forces I a b := by
  have hstatus : (F.characteristic I).status? a = some
      (if F.Forces I a true then .satisfied
      else if F.Forces I a false then .unsatisfied else .undecided) := by
    rw [characteristic, Interpretation.status?, List.getElem?_map, arguments,
      List.getElem?_range ha]
    rfl
  rw [Interpretation.Decides, hstatus, Option.some.injEq]
  by_cases ht : F.Forces I a true
  · rw [if_pos ht]
    cases b with
    | true => exact iff_of_true rfl ht
    | false => exact iff_of_false Status.noConfusion fun h ↦ Bool.noConfusion (h.unique ht)
  · rw [if_neg ht]
    cases b with
    | true => exact iff_of_false (by split <;> exact Status.noConfusion) ht
    | false =>
      by_cases hf : F.Forces I a false
      · rw [if_pos hf]
        exact iff_of_true rfl hf
      · rw [if_neg hf]
        exact iff_of_false Status.noConfusion hf

/-- **The operator is monotone**: a larger interpretation has fewer completions. -/
theorem characteristic_mono (h : I ≤ J) : F.characteristic I ≤ F.characteristic J := by
  refine ⟨by rw [size_characteristic, size_characteristic], fun a b hb ↦ ?_⟩
  have ha : a < F.size := size_characteristic F I ▸ hb.lt_size
  exact (decides_characteristic ha).2 (((decides_characteristic ha).1 hb).mono h)

/-! ### The semantics -/

/-- Each decided argument can have its value: some completion gives it to the condition. -/
structure ConflictFree (F : Framework) (I : Interpretation) : Prop where
  size_eq : I.size = F.size
  allows : ∀ a b, I.Decides a b → F.Allows I a b

/-- Each decided argument must have its value: every completion gives it to the condition. -/
structure Admissible (F : Framework) (I : Interpretation) : Prop where
  size_eq : I.size = F.size
  forces : ∀ a b, I.Decides a b → F.Forces I a b

/-- The maximal conflict-free interpretations. -/
def Naive (F : Framework) (I : Interpretation) : Prop := Maximal F.ConflictFree I

/-- The maximal admissible interpretations. -/
def Preferred (F : Framework) (I : Interpretation) : Prop := Maximal F.Admissible I

/-- The fixpoints of the characteristic operator: an argument has a value if and only if every
completion gives it to the condition, and is undecided otherwise. -/
structure Complete (F : Framework) (I : Interpretation) : Prop where
  size_eq : I.size = F.size
  decides_iff : ∀ a < F.size, ∀ b, I.Decides a b ↔ F.Forces I a b

/-- The least fixpoint of the characteristic operator. -/
def IsGround (F : Framework) (G : Interpretation) : Prop :=
  IsLeast {I | F.characteristic I = I} G

/-- All arguments are decided, and every condition evaluates to the status of its argument. -/
structure TwoValuedModel (F : Framework) (M : Interpretation) : Prop where
  size_eq : M.size = F.size
  isTwoValued : M.isTwoValued
  eval_eq : ∀ a b, M.Decides a b → (F.condition a).eval M.isSatisfied = b

/-- The arguments that some two-valued interpretation satisfies for a reason, after a number of
rounds: an argument is derived when its condition is true as soon as the arguments derived before
are true and the rejected ones are false, whatever all others are. -/
def Derived (F : Framework) (M : Interpretation) : Nat → Nat → Prop
  | 0, _ => False
  | n + 1, a => F.Derived M n a ∨ M.Decides a true ∧
      ∀ v : Nat → Bool, (∀ d, M.Decides d false → v d = false) →
        (∀ d, F.Derived M n d → v d = true) → (F.condition a).eval v = true

/-- A two-valued model that satisfies no argument for reasons that rest on themselves. -/
structure Stable (F : Framework) (M : Interpretation) : Prop extends F.TwoValuedModel M where
  derived : ∀ a, M.Decides a true → ∃ n, F.Derived M n a

/-! ### Admissible interpretations -/

/-- What is forced is allowed. -/
theorem Admissible.conflictFree (h : F.Admissible I) : F.ConflictFree I :=
  ⟨h.size_eq, fun a b hb ↦ (h.forces a b hb).allows⟩

/-- Naive is what cannot be enlarged. -/
theorem naive_iff : F.Naive I ↔ F.ConflictFree I ∧ ∀ J, I < J → ¬F.ConflictFree J :=
  maximal_iff_forall_gt

/-- Preferred is what cannot be enlarged. -/
theorem preferred_iff : F.Preferred I ↔ F.Admissible I ∧ ∀ J, F.Admissible J → ¬I < J :=
  maximal_iff_forall_gt.trans (and_congr_right fun _ ↦
    ⟨fun h _ hJ hlt ↦ h hlt hJ, fun h _ hlt hJ ↦ h _ hJ hlt⟩)

/-- Admissible is what the operator does not retract. -/
theorem admissible_iff : F.Admissible I ↔ I ≤ F.characteristic I := by
  constructor
  · intro h
    refine ⟨by rw [size_characteristic, h.size_eq], fun a b hb ↦ ?_⟩
    exact (decides_characteristic (h.size_eq ▸ hb.lt_size)).2 (h.forces a b hb)
  · intro h
    have hsize : I.size = F.size := h.1.trans (size_characteristic F I)
    exact ⟨hsize, fun a b hb ↦ (decides_characteristic (hsize ▸ hb.lt_size)).1 (hb.mono h)⟩

/-- Complete is what the operator does not change. -/
theorem complete_iff : F.Complete I ↔ F.characteristic I = I := by
  constructor
  · intro h
    refine Interpretation.ext_of_decides ((size_characteristic F I).trans h.size_eq.symm) ?_
    intro a b
    by_cases ha : a < F.size
    · rw [decides_characteristic ha, h.decides_iff a ha]
    · refine iff_of_false (fun hb ↦ ha ?_) fun hb ↦ ha (h.size_eq ▸ hb.lt_size)
      exact size_characteristic F I ▸ hb.lt_size
  · intro h
    refine ⟨by rw [← h, size_characteristic], fun a ha b ↦ ?_⟩
    rw [← decides_characteristic ha, h]

/-- Complete interpretations decide what is forced and nothing else, so they are admissible. -/
theorem Complete.admissible (h : F.Complete I) : F.Admissible I :=
  ⟨h.size_eq, fun a b hb ↦ (h.decides_iff a (h.size_eq ▸ hb.lt_size) b).1 hb⟩

/-- To decide nothing is admissible. -/
theorem admissible_blank (F : Framework) : F.Admissible (.blank F.size) :=
  ⟨Interpretation.size_blank _, fun _ _ h ↦ absurd h Interpretation.not_decides_blank⟩

/-- The operator leads from one admissible interpretation to another. -/
theorem Admissible.characteristic (h : F.Admissible I) : F.Admissible (F.characteristic I) :=
  admissible_iff.2 (characteristic_mono (admissible_iff.1 h))

/-- Deciding one argument that is forced keeps an interpretation admissible. -/
theorem Admissible.set (h : F.Admissible I) (hu : I.status? a = some .undecided)
    (hf : F.Forces I a b) : F.Admissible (I.set a (.ofBool b)) := by
  have hle := Interpretation.le_set_ofBool hu b
  refine ⟨(Interpretation.size_set ..).trans h.size_eq, fun d c hd ↦ ?_⟩
  rcases (Interpretation.decides_set_ofBool (Interpretation.lt_size_of_status? hu)).1 hd with
    ⟨rfl, rfl⟩ | ⟨-, hd⟩
  · exact hf.mono hle
  · exact (h.forces d c hd).mono hle

/-- Two-valued interpretations have one completion, as far as conditions look. -/
theorem eval_eq_of_isTwoValued (hI : I.isTwoValued) (hsize : I.size = F.size) {v : Nat → Bool}
    (hv : I.CompletedBy v) (a : Nat) :
    (F.condition a).eval v = (F.condition a).eval I.isSatisfied := by
  refine Formula.eval_congr _ fun r hr ↦ ?_
  have hr : r < I.size := hsize ▸ (lt_size_of_mem_occurrences hr).1
  obtain ⟨b, hb⟩ := Interpretation.isTwoValued_iff.1 hI r hr
  rw [hv r b hb, I.completedBy_isSatisfied r b hb]

/-- A two-valued model has one completion, so what is allowed is forced. -/
theorem TwoValuedModel.admissible (h : F.TwoValuedModel I) : F.Admissible I := by
  refine ⟨h.size_eq, fun a b hb v hv ↦ ?_⟩
  rw [eval_eq_of_isTwoValued h.isTwoValued h.size_eq hv, h.eval_eq a b hb]

/-! ### The ground interpretation -/

/-- What decides more has fewer undecided arguments. -/
theorem undecided_lt_of_lt (h : I < J) : J.undecided.length < I.undecided.length := by
  have hnodup : ∀ K : Interpretation, K.undecided.Nodup := fun K ↦ List.nodup_range.filter _
  obtain ⟨a, b, hb, hu⟩ := Interpretation.exists_decides_of_lt h
  -- what is undecided in `J` is undecided in `I`, but is not `a`
  have hsub : J.undecided ⊆ I.undecided.erase a := by
    intro d hd
    rw [Interpretation.mem_undecided] at hd
    rw [(hnodup I).mem_erase_iff, Interpretation.mem_undecided]
    refine ⟨?_, Interpretation.undecided_of_not_decides ?_ fun c hc ↦ ?_⟩
    · rintro rfl
      exact Interpretation.not_decides_of_undecided hd hb
    · exact h.le.1 ▸ Interpretation.lt_size_of_status? hd
    · exact Interpretation.not_decides_of_undecided hd (hc.mono h.le)
  have hmem : a ∈ I.undecided := Interpretation.mem_undecided.2 hu
  have hlen := ((hnodup J).subperm hsub).length_le
  rw [List.length_erase_of_mem hmem] at hlen
  have := List.length_pos_of_mem hmem
  omega

/-- There are at most as many rounds to go as there are arguments. -/
theorem length_undecided_blank (n : Nat) : (Interpretation.blank n).undecided.length ≤ n := by
  refine (List.length_filter_le _ _).trans ?_
  rw [List.length_range, Interpretation.size_blank]

/-- Iterating the operator on an admissible interpretation ends in a fixpoint. It is below
everything above the interpretation that the operator does not enlarge. -/
theorem Admissible.exists_fixpoint (h : F.Admissible I) :
    ∃ G, F.characteristic G = G ∧ I ≤ G ∧ ∀ J, I ≤ J → F.characteristic J ≤ J → G ≤ J := by
  -- each round decides an argument, or ends the iteration
  induction hn : I.undecided.length using Nat.strong_induction_on generalizing I with
  | _ n ih =>
    subst hn
    rcases (admissible_iff.1 h).eq_or_lt with heq | hlt
    · exact ⟨I, heq.symm, le_refl I, fun J hJ _ ↦ hJ⟩
    · obtain ⟨G, hG, hle, hleast⟩ := ih _ (undecided_lt_of_lt hlt) h.characteristic rfl
      refine ⟨G, hG, hlt.le.trans hle, fun J hIJ hJ ↦ hleast J ?_ hJ⟩
      calc F.characteristic I ≤ F.characteristic J := characteristic_mono hIJ
        _ ≤ J := hJ

/-- **There is a ground interpretation.** -/
theorem exists_isGround (F : Framework) : ∃ G, F.IsGround G := by
  obtain ⟨G, hG, -, hleast⟩ := F.admissible_blank.exists_fixpoint
  refine ⟨G, hG, fun J hJ ↦ hleast J (Interpretation.blank_le ?_) (le_of_eq hJ)⟩
  rw [← (show F.characteristic J = J from hJ), size_characteristic]

/-- The ground interpretation is below everything that the operator does not enlarge. -/
theorem IsGround.le_of_characteristic_le (h : F.IsGround I) (hJ : F.characteristic J ≤ J) :
    I ≤ J := by
  obtain ⟨G, hG, -, hleast⟩ := F.admissible_blank.exists_fixpoint
  exact (h.2 hG).trans (hleast J (Interpretation.blank_le (hJ.1 ▸ size_characteristic F J)) hJ)

/-- The ground interpretation is about the arguments of the framework. -/
theorem IsGround.size_eq (h : F.IsGround I) : I.size = F.size := by
  rw [← (show F.characteristic I = I from h.1), size_characteristic]

theorem IsGround.blank_le (h : F.IsGround I) : .blank F.size ≤ I :=
  Interpretation.blank_le h.size_eq

/-- What is forced below the ground interpretation holds in it. -/
theorem IsGround.decides (h : F.IsGround J) (hle : I ≤ J) (ha : a < F.size)
    (hf : F.Forces I a b) : J.Decides a b := by
  rw [← (show F.characteristic J = J from h.1)]
  exact (decides_characteristic ha).2 (hf.mono hle)

/-- An admissible interpretation below the ground one that leaves nothing forced undecided is the
ground one. -/
theorem IsGround.eq_of_le (h : F.IsGround J) (hle : I ≤ J) (hI : F.Admissible I)
    (hu : ∀ a b, I.status? a = some .undecided → ¬F.Forces I a b) : I = J := by
  refine le_antisymm hle (h.2 (le_antisymm ?_ (admissible_iff.1 hI)))
  refine ⟨(size_characteristic F I).trans hI.size_eq.symm, fun a b hb ↦ ?_⟩
  have ha : a < F.size := size_characteristic F I ▸ hb.lt_size
  have hf := (decides_characteristic ha).1 hb
  rcases Interpretation.decides_or_undecided (I := I) (a := a) (hI.size_eq ▸ ha) with ⟨c, hc⟩ | hua
  · rwa [hf.unique (hI.forces a c hc)]
  · exact absurd hf (hu a b hua)

/-- Two arguments, each of which is accepted if the other one is not. -/
def mutualExclusion : Framework where
  labels := ⟨["a", "b"], by decide⟩
  conditions := [.neg (.leaf 1), .neg (.leaf 0)]
  length_conditions := rfl
  lt_size_of_mem := by simp [Formula.occurrences, LabelSet.size]

/-- Nothing is forced as long as neither argument is decided. -/
theorem isGround_mutualExclusion : mutualExclusion.IsGround (.blank 2) :=
  ⟨by decide, fun _ h ↦ Interpretation.blank_le (h ▸ size_characteristic _ _)⟩

/-- The interpretation that is given in the examples: one argument is to be satisfied. -/
theorem size_eq_of_satisfied_undecided :
    ∀ J ∈ some (⟨[.satisfied, .undecided]⟩ : Interpretation), J.size = mutualExclusion.size := by
  intro J hJ
  obtain rfl := Option.mem_some_iff.1 hJ
  rfl

/-- If no interpretation is given, there is no size to check. -/
theorem size_eq_of_none {F : Framework} :
    ∀ J ∈ (none : Option Interpretation), J.size = F.size := by simp

end Framework

end Dialectical
