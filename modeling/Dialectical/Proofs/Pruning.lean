import Dialectical.Proofs.Queries

/-!
# Pruners only prune

Pruners spare a search candidates, and change nothing else. A pipeline whose candidates need only be
admissible lists the same interpretations with any list of pruners, since what it lists is a set
that does not mention them (`Pipeline.exists_lists_of_mem_prunable`). So the bound on enumeration
has no effect on what a reasoner answers either.

Which model a reasoner shows depends on the engine, and may depend on the bound. What is compared is
whether there is one.
-/

namespace Dialectical

open Act

variable {σ τ α β : Type} {e e' : Engine}

/-! ### Runs with the same results -/

/-- Both runs end with lists that have the same elements, each of them once. -/
def Outcome.SameListing (o : Outcome σ (List Interpretation))
    (o' : Outcome τ (List Interpretation)) : Prop :=
  ∃ Is Is', o.result = .ok Is ∧ o'.result = .ok Is' ∧ Is.Nodup ∧ Is'.Nodup ∧
    ∀ I, I ∈ Is ↔ I ∈ Is'

/-- Both runs end with values that are the same as seen by `f`. -/
def Outcome.SameBy (f : α → β) (o : Outcome σ α) (o' : Outcome τ α) : Prop :=
  ∃ a a', o.result = .ok a ∧ o'.result = .ok a' ∧ f a = f a'

/-- Runs that list the same models have the same results. -/
theorem Act.Ensures.sameListing {x : Act σ (List Interpretation)} {s : σ}
    {x' : Act τ (List Interpretation)} {s' : τ} {M : Interpretation → Prop} {E : σ → Prop}
    {E' : τ → Prop} (h : x.Ensures e s (fun Is _ ↦ Is.Nodup ∧ ∀ I, I ∈ Is ↔ M I) E)
    (h' : x'.Ensures e' s' (fun Is _ ↦ Is.Nodup ∧ ∀ I, I ∈ Is ↔ M I) E') (he : e.Decisive)
    (he' : e'.Decisive) (j j' : Journal) : (x.run e s j).SameListing (x'.run e' s' j') := by
  obtain ⟨Is, t, i, hrun, hnodup, hIs⟩ := h.exists_ok he j
  obtain ⟨Is', t', i', hrun', hnodup', hIs'⟩ := h'.exists_ok he' j'
  exact ⟨Is, Is', by rw [hrun], by rw [hrun'], hnodup, hnodup',
    fun I ↦ (hIs I).trans (hIs' I).symm⟩

/-- What a property decides is the same in both runs. -/
theorem Act.Ensures.sameBy {x : Act σ α} {s : σ} {x' : Act τ α} {s' : τ} {f : α → Bool}
    {P : Prop} {Q : α → σ → Prop} {Q' : α → τ → Prop} {E : σ → Prop} {E' : τ → Prop}
    (h : x.Ensures e s (fun a t ↦ (f a ↔ P) ∧ Q a t) E)
    (h' : x'.Ensures e' s' (fun a t ↦ (f a ↔ P) ∧ Q' a t) E') (he : e.Decisive) (he' : e'.Decisive)
    (j j' : Journal) : (x.run e s j).SameBy f (x'.run e' s' j') := by
  obtain ⟨a, t, i, hrun, ha⟩ := h.exists_ok he j
  obtain ⟨a', t', i', hrun', ha'⟩ := h'.exists_ok he' j'
  exact ⟨a, a', by rw [hrun], by rw [hrun'], Bool.eq_iff_iff.2 (ha.1.trans ha'.1.symm)⟩

/-! ### Pipelines with pruners -/

/-- The pipelines that pruners may be added to. All that they look for is admissible. -/
def Pipeline.prunable (given : Option Interpretation) (k : Nat) : List Pipeline :=
  [{ generator := .new .conflictFree given, verifier := some (.new .admissible) },
    { generator := .new .conflictFree given, verifier := some (.new .complete) },
    { generator := .new .conflictFree given, verifier := some (.new .preferred) },
    { generator := .new .conflictFree given, verifier := some (.new .admissible)
      late := [.maximizer { k }] },
    { generator := .new .twoValued given },
    { generator := .new .twoValued given, verifier := some (.new .stable) },
    { generator := .new .ground given }]

/-- **What is listed does not depend on the pruners.** -/
theorem Pipeline.exists_lists_of_mem_prunable {S : Setting} {given : Option Interpretation}
    {k : Nat} {p : Pipeline} (hp : p ∈ prunable given k) (hS : S.Fits)
    (hgiven : ∀ J ∈ given, J.size = S.framework.size) :
    ∃ M, ∀ (e : Engine) (_ : e.Sound) (ks : List Nat),
      Lists S e M { p with pruners := p.pruners ++ Pruner.newAll ks } := by
  simp only [prunable, List.mem_cons, List.not_mem_nil, or_false] at hp
  rcases hp with rfl | rfl | rfl | rfl | rfl | rfl | rfl
  · exact ⟨_, fun e he ks ↦ lists_verifying (c := .admissible) hS he hgiven ks
      Criterion.noConfusion⟩
  · exact ⟨_, fun e he ks ↦ lists_verifying (c := .complete) hS he hgiven ks
      Criterion.noConfusion⟩
  · exact ⟨_, fun e he ks ↦ lists_verifying (c := .preferred) hS he hgiven ks
      Criterion.noConfusion⟩
  · exact ⟨_, fun e he ks ↦ lists_maximizing hS he hgiven ks k⟩
  · exact ⟨_, fun e he ks ↦ lists_twoValued hS he hgiven ks⟩
  · exact ⟨_, fun e he ks ↦ lists_stable hS he hgiven ks⟩
  · exact ⟨_, fun e he ks ↦ lists_ground hS he hgiven ks⟩

/-! ### Reasoners -/

/-- **Pruners only prune.** Whatever models the engines choose, adding pruners to a pipeline does
not change what it lists, and the bound on enumeration does not change what a reasoner lists,
whether it finds a model, and which arguments it accepts. -/
theorem pruners_only_prune (F : Framework) (given : Option Interpretation)
    (hgiven : ∀ J ∈ given, J.size = F.size) (e e' : Engine) (he : e.Correct) (he' : e'.Correct)
    (j j' : Journal) :
    (∀ k, ∀ p ∈ Pipeline.prunable given k, ∀ ks,
      ((Pipeline.all (.of F)).run e { p with pruners := p.pruners ++ Pruner.newAll ks }
        j).SameListing ((Pipeline.all (.of F)).run e' p j')) ∧
    ∀ (semantics : Semantics) (k k' : Nat) (s : σ) (s' : τ),
      let R : Reasoner := { setting := .of F, semantics, k }
      let R' : Reasoner := { setting := .of F, semantics, k := k' }
      ((R.modelsExtending given).run e s j).SameListing ((R'.modelsExtending given).run e' s' j') ∧
      (R.model?.run e s j).SameBy Option.isSome (R'.model?.run e' s' j') ∧
      ∀ a, ((R.credulous a).run e s j).SameBy Acceptance.accepted ((R'.credulous a).run e' s' j') ∧
        ((R.skeptical a).run e s j).SameBy Acceptance.accepted
          ((R'.skeptical a).run e' s' j') := by
  have hS := Setting.fits_of F
  refine ⟨fun k p hp ks ↦ ?_, fun semantics k k' s s' ↦ ?_⟩
  · obtain ⟨M, hM⟩ := Pipeline.exists_lists_of_mem_prunable hp hS hgiven
    have hp' : p.Lists (.of F) e' M := by
      have hnil := hM e' he'.sound []
      rwa [Pruner.newAll, List.map_nil, List.append_nil] at hnil
    exact (hM e he.sound ks).ensures_all.sameListing hp'.ensures_all he.decisive he'.decisive j j'
  · intro R R'
    have hR : R.setting.Fits := hS
    have hR' : R'.setting.Fits := hS
    refine ⟨?_, ?_, fun a ↦ ⟨?_, ?_⟩⟩
    · exact (R.ensures_modelsExtending hR he.sound hgiven).sameListing
        (R'.ensures_modelsExtending hR' he'.sound hgiven) he.decisive he'.decisive j j'
    · exact (R.ensures_model? hR he.sound).sameBy (R'.ensures_model? hR' he'.sound)
        he.decisive he'.decisive j j'
    · exact (R.ensures_credulous hR he.sound a).sameBy (R'.ensures_credulous hR' he'.sound a)
        he.decisive he'.decisive j j'
    · exact (R.ensures_skeptical hR he.sound a).sameBy (R'.ensures_skeptical hR' he'.sound a)
        he.decisive he'.decisive j j'

/-- The case of two arguments that exclude each other, one of which is to be satisfied: a pruner
that enumerates and two that do not are added to a maximization. -/
theorem pruners_only_prune_mutualExclusion :
    (∀ J ∈ some (⟨[.satisfied, .undecided]⟩ : Interpretation),
      J.size = Framework.mutualExclusion.size) ∧ Engine.exhaustive.Correct ∧
    ((Pipeline.all (.of .mutualExclusion)).run .exhaustive
      { generator := .new .conflictFree (some ⟨[.satisfied, .undecided]⟩)
        pruners := Pruner.newAll [2, 0, 0], verifier := some (.new .admissible)
        late := [.maximizer { k := 1 }] } .empty).SameListing
      ((Pipeline.all (.of .mutualExclusion)).run .exhaustive
        { generator := .new .conflictFree (some ⟨[.satisfied, .undecided]⟩)
          verifier := some (.new .admissible), late := [.maximizer { k := 1 }] } .empty) := by
  have he := Engine.exhaustive_correct
  have hgiven := Framework.size_eq_of_satisfied_undecided
  have hprunes := pruners_only_prune (σ := Unit) (τ := Unit) .mutualExclusion _ hgiven _ _ he he
    .empty .empty
  have hpruned := hprunes.1 1
    { generator := .new .conflictFree (some ⟨[.satisfied, .undecided]⟩)
      verifier := some (.new .admissible), late := [.maximizer { k := 1 }] }
    (by simp [Pipeline.prunable]) [2, 0, 0]
  simp only [List.nil_append] at hpruned
  exact ⟨hgiven, he, hpruned⟩

end Dialectical
