import Dialectical.Proofs.Listings
import Mathlib.Order.Preorder.Finite

/-!
# How the semantics are related

The models of one semantics are models of another one, or enlarge to such. Everything here follows
from what the characteristic operator does, and nothing is said of how models are found.

* Two-valued models are preferred, since nothing that is decided everywhere can be enlarged.
* Preferred interpretations are complete: an admissible interpretation is enlarged by the operator
  as long as it is not a fixpoint, and the result is admissible again.
* There are finitely many interpretations of a framework, so what is admissible can be enlarged to
  something preferred, and what is conflict-free to something naive.
* The ground interpretation is the least complete one, so it decides what all of them agree on.

So an argument is satisfied by some admissible interpretation if and only if it is by some complete
and by some preferred one (`exists_admissible_iff`), and by all complete ones if and only if it is
by the ground one (`forall_complete_iff`).
-/

namespace Dialectical

/-- What is true of an interpretation of `n` arguments is true of a maximal one above it. -/
theorem Interpretation.exists_maximal {n : Nat} {P : Interpretation → Prop} {I : Interpretation}
    (hsize : ∀ J, P J → J.size = n) (hI : P I) : ∃ M, I ≤ M ∧ Maximal P M := by
  have hfinite : {J | P J}.Finite := (finite_size n).subset hsize
  exact hfinite.exists_le_maximal hI

namespace Framework

variable {F : Framework} {I G : Interpretation} {a : Nat}

/-- Models of any semantics are about the arguments of the framework. -/
theorem IsModel.size_eq {semantics : Semantics} (h : F.IsModel semantics I) : I.size = F.size := by
  cases semantics with
  | conflictFree => exact ConflictFree.size_eq h
  | naive => exact (Maximal.prop h).size_eq
  | admissible => exact Admissible.size_eq h
  | complete => exact Complete.size_eq h
  | preferred => exact (Maximal.prop h).size_eq
  | stable => exact (Stable.toTwoValuedModel h).size_eq
  | twoValued => exact TwoValuedModel.size_eq h
  | ground => exact IsGround.size_eq h

/-! ### Inclusions -/

/-- What is two-valued cannot be enlarged. -/
theorem TwoValuedModel.preferred (h : F.TwoValuedModel I) : F.Preferred I :=
  ⟨h.admissible, fun _ _ hle ↦ (Interpretation.eq_of_le_of_isTwoValued hle h.isTwoValued).ge⟩

/-- The operator would enlarge an admissible interpretation that is not a fixpoint. -/
theorem Preferred.complete (h : F.Preferred I) : F.Complete I := by
  have hle : I ≤ F.characteristic I := admissible_iff.1 h.prop
  exact complete_iff.2 (h.eq_of_le h.prop.characteristic hle).symm

/-- Complete interpretations decide at least what the ground one decides. -/
theorem IsGround.le_of_complete (h : F.IsGround G) (hI : F.Complete I) : G ≤ I :=
  h.2 (complete_iff.1 hI)

/-! ### Enlarging -/

/-- Something preferred is above everything admissible. -/
theorem Admissible.exists_preferred (h : F.Admissible I) : ∃ P, I ≤ P ∧ F.Preferred P :=
  Interpretation.exists_maximal (fun _ hJ ↦ hJ.size_eq) h

/-- And something naive above everything conflict-free. -/
theorem ConflictFree.exists_naive (h : F.ConflictFree I) : ∃ N, I ≤ N ∧ F.Naive N :=
  Interpretation.exists_maximal (fun _ hJ ↦ hJ.size_eq) h

/-- **Only two of the semantics may have no model.** -/
theorem exists_isModel (F : Framework) {semantics : Semantics} (hstable : semantics ≠ .stable)
    (htwoValued : semantics ≠ .twoValued) : ∃ I, F.IsModel semantics I := by
  have hblank := F.admissible_blank
  obtain ⟨P, -, hP⟩ := hblank.exists_preferred
  obtain ⟨N, -, hN⟩ := hblank.conflictFree.exists_naive
  cases semantics with
  | conflictFree => exact ⟨_, hblank.conflictFree⟩
  | naive => exact ⟨N, hN⟩
  | admissible => exact ⟨_, hblank⟩
  | complete => exact ⟨P, hP.complete⟩
  | preferred => exact ⟨P, hP⟩
  | stable => exact absurd rfl hstable
  | twoValued => exact absurd rfl htwoValued
  | ground => exact F.exists_isGround

/-! ### What is agreed on -/

/-- **The ground interpretation is what the complete ones agree on**: an argument has the status
that it has in all of them, if there is one, and is undecided otherwise. -/
theorem IsGround.status?_eq_iff (h : F.IsGround G) (ha : a < F.size) (s : Status) :
    G.status? a = some s ↔ (∀ I, F.Complete I → I.status? a = some s) ∨
      s = .undecided ∧ ¬∃ t, ∀ I, F.Complete I → I.status? a = some t := by
  have hdecided : ∀ b, G.Decides a b → ∀ I, F.Complete I → I.Decides a b :=
    fun b hb I hI ↦ hb.mono (h.le_of_complete hI)
  constructor
  · intro hs
    rcases Status.eq_ofBool_or_undecided s with ⟨b, rfl⟩ | rfl
    · exact .inl (hdecided b hs)
    · by_cases hcommon : ∃ t, ∀ I, F.Complete I → I.status? a = some t
      · obtain ⟨t, ht⟩ := hcommon
        obtain rfl : t = .undecided := Option.some.inj ((ht G h.complete).symm.trans hs)
        exact .inl ht
      · exact .inr ⟨rfl, hcommon⟩
  · rintro (hall | ⟨rfl, hno⟩)
    · exact hall G h.complete
    · refine Interpretation.undecided_of_not_decides (h.size_eq ▸ ha) fun b hb ↦ hno ?_
      exact ⟨.ofBool b, hdecided b hb⟩

/-! ### Acceptance -/

/-- An argument that an admissible interpretation satisfies is satisfied by a preferred one above
it. -/
theorem Admissible.exists_preferred_isSatisfied (h : F.Admissible I) (ha : I.isSatisfied a) :
    ∃ P, F.Preferred P ∧ P.isSatisfied a := by
  obtain ⟨P, hle, hP⟩ := h.exists_preferred
  have hdecides : I.Decides a true := Interpretation.isSatisfied_iff.1 ha
  exact ⟨P, hP, Interpretation.isSatisfied_iff.2 (hdecides.mono hle)⟩

/-- An argument is satisfied by an admissible interpretation if and only if it is by a complete
one, and if and only if it is by a preferred one. -/
theorem exists_admissible_iff :
    ((∃ I, F.Admissible I ∧ I.isSatisfied a) ↔ ∃ I, F.Complete I ∧ I.isSatisfied a) ∧
    ((∃ I, F.Complete I ∧ I.isSatisfied a) ↔ ∃ I, F.Preferred I ∧ I.isSatisfied a) := by
  have henlarge : (∃ I, F.Admissible I ∧ I.isSatisfied a) → ∃ I, F.Preferred I ∧ I.isSatisfied a :=
    fun ⟨_, hI, ha⟩ ↦ hI.exists_preferred_isSatisfied ha
  have hcomplete : (∃ I, F.Preferred I ∧ I.isSatisfied a) → ∃ I, F.Complete I ∧ I.isSatisfied a :=
    fun ⟨I, hI, ha⟩ ↦ ⟨I, hI.complete, ha⟩
  have hadmissible : (∃ I, F.Complete I ∧ I.isSatisfied a) →
      ∃ I, F.Admissible I ∧ I.isSatisfied a := fun ⟨I, hI, ha⟩ ↦ ⟨I, hI.admissible, ha⟩
  exact ⟨⟨hcomplete ∘ henlarge, hadmissible⟩, ⟨henlarge ∘ hadmissible, hcomplete⟩⟩

/-- What the ground interpretation satisfies is what all complete ones satisfy. -/
theorem IsGround.isSatisfied_iff (h : F.IsGround G) :
    G.isSatisfied a ↔ ∀ I, F.Complete I → I.isSatisfied a := by
  refine ⟨fun ha I hI ↦ ?_, fun hall ↦ hall G h.complete⟩
  have hdecides : G.Decides a true := Interpretation.isSatisfied_iff.1 ha
  exact Interpretation.isSatisfied_iff.2 (hdecides.mono (h.le_of_complete hI))

/-- All complete interpretations satisfy an argument if and only if all ground ones do, and if and
only if some ground one does, as there is exactly one. -/
theorem forall_complete_iff :
    ((∀ I, F.Complete I → I.isSatisfied a) ↔ ∀ I, F.IsGround I → I.isSatisfied a) ∧
    ((∀ I, F.Complete I → I.isSatisfied a) ↔ ∃ I, F.IsGround I ∧ I.isSatisfied a) := by
  obtain ⟨G, hG⟩ := F.exists_isGround
  rw [← hG.isSatisfied_iff]
  refine ⟨⟨fun ha I hI ↦ hG.unique hI ▸ ha, fun hall ↦ hall G hG⟩, fun ha ↦ ⟨G, hG, ha⟩, ?_⟩
  rintro ⟨I, hI, ha⟩
  exact hG.unique hI ▸ ha

end Framework

end Dialectical
