import Dialectical.Proofs.Engines
import Dialectical.Proofs.Listings

/-!
# The models that pipelines list

What a pipeline lists is read off its plan: all models, each of them once, in an order that depends
on the engine. Which candidates come up depends on the engine and on the bound on enumeration, but
what is listed does not; and two pipelines for the same models may work through entirely different
candidates.
-/

namespace Dialectical

open Act

variable {σ : Type} {e : Engine}

/-! ### Pipelines -/

section

variable {F : Framework} {given : Option Interpretation} {k : Nat}

/-- The pipeline that verifies conflict-free candidates to be preferred. -/
theorem Pipeline.ensures_all_verifying (he : e.Sound) (hgiven : ∀ J ∈ given, J.size = F.size) :
    (Pipeline.all (.of F)).Ensures e
      { generator := .new .conflictFree given, verifier := some (.new .preferred) }
      (fun Is _ ↦ Is.Nodup ∧ ∀ I, I ∈ Is ↔ F.Preferred I ∧ ∀ J ∈ given, J ≤ I) fun _ ↦ True :=
  (lists_verifying (c := .preferred) (Setting.fits_of F) he hgiven []
    Criterion.noConfusion).ensures_all

/-- The pipeline that verifies conflict-free candidates to be admissible. -/
theorem Pipeline.ensures_all_admissible (he : e.Sound) (hgiven : ∀ J ∈ given, J.size = F.size)
    (k : Nat) : (Pipeline.all (.of F)).Ensures e
      { generator := .new .conflictFree given, pruners := [{ k }]
        verifier := some (.new .admissible) }
      (fun Is _ ↦ Is.Nodup ∧ ∀ I, I ∈ Is ↔ F.Admissible I ∧ ∀ J ∈ given, J ≤ I)
      fun _ ↦ True :=
  (lists_verifying (c := .admissible) (Setting.fits_of F) he hgiven [k]
    Criterion.noConfusion).ensures_all

/-- The pipeline that verifies conflict-free candidates to be complete. -/
theorem Pipeline.ensures_all_complete (he : e.Sound) (hgiven : ∀ J ∈ given, J.size = F.size)
    (k : Nat) : (Pipeline.all (.of F)).Ensures e
      { generator := .new .conflictFree given, pruners := [{ k }]
        verifier := some (.new .complete) }
      (fun Is _ ↦ Is.Nodup ∧ ∀ I, I ∈ Is ↔ F.Complete I ∧ ∀ J ∈ given, J ≤ I)
      fun _ ↦ True :=
  (lists_verifying (c := .complete) (Setting.fits_of F) he hgiven [k]
    Criterion.noConfusion).ensures_all

/-- The pipeline that verifies conflict-free candidates to be naive. -/
theorem Pipeline.ensures_all_naive (he : e.Sound) (hgiven : ∀ J ∈ given, J.size = F.size) :
    (Pipeline.all (.of F)).Ensures e
      { generator := .new .conflictFree given, verifier := some (.new .naive) }
      (fun Is _ ↦ Is.Nodup ∧ ∀ I, I ∈ Is ↔ F.Naive I ∧ ∀ J ∈ given, J ≤ I) fun _ ↦ True :=
  (lists_naive (Setting.fits_of F) he hgiven).ensures_all

/-- The pipeline that maximizes admissible candidates, with any bounds on enumeration. -/
theorem Pipeline.ensures_all_maximizing (he : e.Sound) (hgiven : ∀ J ∈ given, J.size = F.size)
    (k k' : Nat) : (Pipeline.all (.of F)).Ensures e
      { generator := .new .conflictFree given, pruners := [{ k }]
        verifier := some (.new .admissible), late := [.maximizer { k := k' }] }
      (fun Is _ ↦ Is.Nodup ∧ ∀ I, I ∈ Is ↔ F.Preferred I ∧ ∀ J ∈ given, J ≤ I) fun _ ↦ True :=
  (lists_maximizing (Setting.fits_of F) he hgiven [k] k').ensures_all

/-- The pipeline that verifies two-valued models to be stable. -/
theorem Pipeline.ensures_all_stable (he : e.Sound) (hgiven : ∀ J ∈ given, J.size = F.size) :
    (Pipeline.all (.of F)).Ensures e
      { generator := .new .twoValued given, verifier := some (.new .stable) }
      (fun Is _ ↦ Is.Nodup ∧ ∀ I, I ∈ Is ↔ F.Stable I ∧ ∀ J ∈ given, J ≤ I) fun _ ↦ True :=
  (lists_stable (Setting.fits_of F) he hgiven []).ensures_all

/-! ### Reasoners -/

/-- What a reasoner does with a pipeline of its own is what the pipeline does. -/
theorem Reasoner.ensures_withPipeline {α : Type} {R : Reasoner} {x : Act Pipeline α}
    {Φ : α → Prop} {s : σ}
    (h : x.Ensures e (R.assemble given) (fun a _ ↦ Φ a) fun _ ↦ True) :
    (R.withPipeline given x).Ensures e s (fun a s' ↦ Φ a ∧ s' = s) fun _ ↦ True := by
  rw [withPipeline]
  refine ensures_bracket (A := (· = R.assemble given)) Pipeline.isQuiet_close ?_ ?_
  · exact Ensures.log_bind (ensures_pure.2 rfl)
  · rintro _ rfl
    exact h.mono (fun _ _ ha ↦ ⟨ha, rfl⟩) fun _ _ ↦ trivial

/-- What a reasoner lists is what its pipeline lists. -/
theorem Reasoner.exists_modelsExtending {R : Reasoner} {Φ : List Interpretation → Prop}
    (h : (Pipeline.all R.setting).Ensures e (R.assemble given) (fun Is _ ↦ Φ Is) fun _ ↦ True)
    (he : e.Decisive) (s : σ) (j : Journal) :
    ∃ Is j', (R.modelsExtending given).run e s j = ⟨.ok Is, s, j'⟩ ∧ Φ Is := by
  have hmodels : (R.modelsExtending given).Ensures e s (fun Is s' ↦ Φ Is ∧ s' = s)
      fun _ ↦ True := ensures_withPipeline h
  obtain ⟨Is, _, j', hrun, hIs, rfl⟩ := hmodels.exists_ok he j
  exact ⟨Is, j', hrun, hIs⟩

/-- **All preferred interpretations.** Whatever models the engine chooses, the reasoner lists the
preferred interpretations that extend the given one, each of them once. -/
theorem Reasoner.modelsExtending_preferred (F : Framework) (k : Nat)
    (given : Option Interpretation) (hgiven : ∀ J ∈ given, J.size = F.size) (e : Engine)
    (he : e.Correct) (s : σ) (j : Journal) :
    ∃ Is j', (Reasoner.modelsExtending { setting := .of F, semantics := .preferred, k } given).run
        e s j = ⟨.ok Is, s, j'⟩ ∧
      Is.Nodup ∧ ∀ I, I ∈ Is ↔ F.Preferred I ∧ ∀ J ∈ given, J ≤ I := by
  refine exists_modelsExtending (Φ := fun Is ↦
    Is.Nodup ∧ ∀ I, I ∈ Is ↔ F.Preferred I ∧ ∀ J ∈ given, J ≤ I) ?_ he.decisive s j
  exact Pipeline.ensures_all_maximizing he.sound hgiven k k

/-- The case of two arguments that exclude each other, one of which is to be satisfied. -/
theorem Reasoner.modelsExtending_preferred_mutualExclusion :
    (∀ J ∈ some (⟨[.satisfied, .undecided]⟩ : Interpretation),
      J.size = Framework.mutualExclusion.size) ∧ Engine.exhaustive.Correct ∧
    ∃ Is j', (Reasoner.modelsExtending
        { setting := .of .mutualExclusion, semantics := .preferred, k := 2 }
        (some ⟨[.satisfied, .undecided]⟩)).run .exhaustive () .empty = ⟨.ok Is, (), j'⟩ ∧
      Is.Nodup ∧ ∀ I, I ∈ Is ↔
        Framework.mutualExclusion.Preferred I ∧ ∀ J ∈ some ⟨[.satisfied, .undecided]⟩, J ≤ I := by
  have he := Engine.exhaustive_correct
  have hgiven : ∀ J ∈ some (⟨[.satisfied, .undecided]⟩ : Interpretation),
      J.size = Framework.mutualExclusion.size := by
    rintro _ ⟨⟩
    rfl
  exact ⟨hgiven, he, modelsExtending_preferred _ 2 _ hgiven _ he () .empty⟩

/-- **All stable models.** Whatever models the engine chooses, the reasoner lists the stable models
that extend the given interpretation, each of them once. -/
theorem Reasoner.modelsExtending_stable (F : Framework) (k : Nat) (given : Option Interpretation)
    (hgiven : ∀ J ∈ given, J.size = F.size) (e : Engine) (he : e.Correct) (s : σ) (j : Journal) :
    ∃ Is j', (Reasoner.modelsExtending { setting := .of F, semantics := .stable, k } given).run
        e s j = ⟨.ok Is, s, j'⟩ ∧
      Is.Nodup ∧ ∀ I, I ∈ Is ↔ F.Stable I ∧ ∀ J ∈ given, J ≤ I := by
  refine exists_modelsExtending (Φ := fun Is ↦
    Is.Nodup ∧ ∀ I, I ∈ Is ↔ F.Stable I ∧ ∀ J ∈ given, J ≤ I) ?_ he.decisive s j
  exact Pipeline.ensures_all_stable he.sound hgiven

/-- The case of two arguments that exclude each other, one of which is to be satisfied. -/
theorem Reasoner.modelsExtending_stable_mutualExclusion :
    (∀ J ∈ some (⟨[.satisfied, .undecided]⟩ : Interpretation),
      J.size = Framework.mutualExclusion.size) ∧ Engine.exhaustive.Correct ∧
    ∃ Is j', (Reasoner.modelsExtending
        { setting := .of .mutualExclusion, semantics := .stable, k := 2 }
        (some ⟨[.satisfied, .undecided]⟩)).run .exhaustive () .empty = ⟨.ok Is, (), j'⟩ ∧
      Is.Nodup ∧ ∀ I, I ∈ Is ↔
        Framework.mutualExclusion.Stable I ∧ ∀ J ∈ some ⟨[.satisfied, .undecided]⟩, J ≤ I := by
  have he := Engine.exhaustive_correct
  have hgiven : ∀ J ∈ some (⟨[.satisfied, .undecided]⟩ : Interpretation),
      J.size = Framework.mutualExclusion.size := by
    rintro _ ⟨⟩
    rfl
  exact ⟨hgiven, he, modelsExtending_stable _ 2 _ hgiven _ he () .empty⟩

/-- **All naive interpretations.** Whatever models the engine chooses, the reasoner lists those
maximal conflict-free interpretations that extend the given one, each of them once. They are maximal
among all conflict-free interpretations, not only among those that extend the given one. -/
theorem Reasoner.modelsExtending_naive (F : Framework) (k : Nat) (given : Option Interpretation)
    (hgiven : ∀ J ∈ given, J.size = F.size) (e : Engine) (he : e.Correct) (s : σ) (j : Journal) :
    ∃ Is j', (Reasoner.modelsExtending { setting := .of F, semantics := .naive, k } given).run
        e s j = ⟨.ok Is, s, j'⟩ ∧
      Is.Nodup ∧ ∀ I, I ∈ Is ↔ F.Naive I ∧ ∀ J ∈ given, J ≤ I := by
  refine exists_modelsExtending ?_ he.decisive s j
  exact Pipeline.ensures_all_naive he.sound hgiven

/-- The case of two arguments that exclude each other, one of which is to be satisfied. -/
theorem Reasoner.modelsExtending_naive_mutualExclusion :
    (∀ J ∈ some (⟨[.satisfied, .undecided]⟩ : Interpretation),
      J.size = Framework.mutualExclusion.size) ∧ Engine.exhaustive.Correct ∧
    ∃ Is j', (Reasoner.modelsExtending
        { setting := .of .mutualExclusion, semantics := .naive, k := 2 }
        (some ⟨[.satisfied, .undecided]⟩)).run .exhaustive () .empty = ⟨.ok Is, (), j'⟩ ∧
      Is.Nodup ∧ ∀ I, I ∈ Is ↔
        Framework.mutualExclusion.Naive I ∧ ∀ J ∈ some ⟨[.satisfied, .undecided]⟩, J ≤ I := by
  have he := Engine.exhaustive_correct
  have hgiven := Framework.size_eq_of_satisfied_undecided
  exact ⟨hgiven, he, modelsExtending_naive _ 2 _ hgiven _ he () .empty⟩

/-- **All admissible interpretations.** Whatever models the engine chooses and whatever is
enumerated, the reasoner lists the admissible interpretations that extend the given one, each of
them once. -/
theorem Reasoner.modelsExtending_admissible (F : Framework) (k : Nat)
    (given : Option Interpretation) (hgiven : ∀ J ∈ given, J.size = F.size) (e : Engine)
    (he : e.Correct) (s : σ) (j : Journal) :
    ∃ Is j', (Reasoner.modelsExtending { setting := .of F, semantics := .admissible, k } given).run
        e s j = ⟨.ok Is, s, j'⟩ ∧
      Is.Nodup ∧ ∀ I, I ∈ Is ↔ F.Admissible I ∧ ∀ J ∈ given, J ≤ I := by
  refine exists_modelsExtending ?_ he.decisive s j
  exact Pipeline.ensures_all_admissible he.sound hgiven k

/-- The case of two arguments that exclude each other, one of which is to be satisfied. -/
theorem Reasoner.modelsExtending_admissible_mutualExclusion :
    (∀ J ∈ some (⟨[.satisfied, .undecided]⟩ : Interpretation),
      J.size = Framework.mutualExclusion.size) ∧ Engine.exhaustive.Correct ∧
    ∃ Is j', (Reasoner.modelsExtending
        { setting := .of .mutualExclusion, semantics := .admissible, k := 2 }
        (some ⟨[.satisfied, .undecided]⟩)).run .exhaustive () .empty = ⟨.ok Is, (), j'⟩ ∧
      Is.Nodup ∧ ∀ I, I ∈ Is ↔
        Framework.mutualExclusion.Admissible I ∧ ∀ J ∈ some ⟨[.satisfied, .undecided]⟩, J ≤ I := by
  have he := Engine.exhaustive_correct
  have hgiven := Framework.size_eq_of_satisfied_undecided
  exact ⟨hgiven, he, modelsExtending_admissible _ 2 _ hgiven _ he () .empty⟩

/-- **All complete interpretations.** Whatever models the engine chooses and whatever is enumerated,
the reasoner lists the fixpoints of the characteristic operator that extend the given
interpretation, each of them once. -/
theorem Reasoner.modelsExtending_complete (F : Framework) (k : Nat)
    (given : Option Interpretation) (hgiven : ∀ J ∈ given, J.size = F.size) (e : Engine)
    (he : e.Correct) (s : σ) (j : Journal) :
    ∃ Is j', (Reasoner.modelsExtending { setting := .of F, semantics := .complete, k } given).run
        e s j = ⟨.ok Is, s, j'⟩ ∧
      Is.Nodup ∧ ∀ I, I ∈ Is ↔ F.Complete I ∧ ∀ J ∈ given, J ≤ I := by
  refine exists_modelsExtending ?_ he.decisive s j
  exact Pipeline.ensures_all_complete he.sound hgiven k

/-- The case of two arguments that exclude each other, one of which is to be satisfied. -/
theorem Reasoner.modelsExtending_complete_mutualExclusion :
    (∀ J ∈ some (⟨[.satisfied, .undecided]⟩ : Interpretation),
      J.size = Framework.mutualExclusion.size) ∧ Engine.exhaustive.Correct ∧
    ∃ Is j', (Reasoner.modelsExtending
        { setting := .of .mutualExclusion, semantics := .complete, k := 2 }
        (some ⟨[.satisfied, .undecided]⟩)).run .exhaustive () .empty = ⟨.ok Is, (), j'⟩ ∧
      Is.Nodup ∧ ∀ I, I ∈ Is ↔
        Framework.mutualExclusion.Complete I ∧ ∀ J ∈ some ⟨[.satisfied, .undecided]⟩, J ≤ I := by
  have he := Engine.exhaustive_correct
  have hgiven := Framework.size_eq_of_satisfied_undecided
  exact ⟨hgiven, he, modelsExtending_complete _ 2 _ hgiven _ he () .empty⟩

/-! ### Two ways to the preferred interpretations -/

/-- **Verifying and maximizing agree.** The pipeline that rejects what is not preferred and the one
that enlarges what is admissible list the same interpretations, each of them once, whichever engines
they run on and whatever is enumerated. -/
theorem Pipeline.verifying_eq_maximizing (F : Framework) (k k' : Nat)
    (given : Option Interpretation) (hgiven : ∀ J ∈ given, J.size = F.size) (e e' : Engine)
    (he : e.Correct) (he' : e'.Correct) (j j' : Journal) :
    ∃ Is p i Is' p' i',
      (Pipeline.all (.of F)).run e
        { generator := .new .conflictFree given, verifier := some (.new .preferred) } j =
          ⟨.ok Is, p, i⟩ ∧
      (Pipeline.all (.of F)).run e'
        { generator := .new .conflictFree given, pruners := [{ k }]
          verifier := some (.new .admissible), late := [.maximizer { k := k' }] } j' =
          ⟨.ok Is', p', i'⟩ ∧
      Is.Nodup ∧ Is'.Nodup ∧ ∀ I, I ∈ Is ↔ I ∈ Is' := by
  obtain ⟨Is, p, i, hrun, hnodup, hIs⟩ :=
    (ensures_all_verifying he.sound hgiven).exists_ok he.decisive j
  obtain ⟨Is', p', i', hrun', hnodup', hIs'⟩ :=
    (ensures_all_maximizing he'.sound hgiven k k').exists_ok he'.decisive j'
  exact ⟨Is, p, i, Is', p', i', hrun, hrun', hnodup, hnodup', fun I ↦ (hIs I).trans (hIs' I).symm⟩

/-- The case of two arguments that exclude each other, with and without enumeration. -/
theorem Pipeline.verifying_eq_maximizing_mutualExclusion :
    (∀ J ∈ (none : Option Interpretation), J.size = Framework.mutualExclusion.size) ∧
    Engine.exhaustive.Correct ∧ ∃ Is p i Is' p' i',
      (Pipeline.all (.of .mutualExclusion)).run .exhaustive
        { generator := .new .conflictFree none, verifier := some (.new .preferred) } .empty =
          ⟨.ok Is, p, i⟩ ∧
      (Pipeline.all (.of .mutualExclusion)).run .exhaustive
        { generator := .new .conflictFree none, pruners := [{ k := 2 }]
          verifier := some (.new .admissible), late := [.maximizer { k := 0 }] } .empty =
          ⟨.ok Is', p', i'⟩ ∧
      Is.Nodup ∧ Is'.Nodup ∧ ∀ I, I ∈ Is ↔ I ∈ Is' := by
  have he := Engine.exhaustive_correct
  have hgiven : ∀ J ∈ (none : Option Interpretation),
      J.size = Framework.mutualExclusion.size := by simp
  exact ⟨hgiven, he, verifying_eq_maximizing _ 2 0 none hgiven _ _ he he .empty .empty⟩

end

end Dialectical
