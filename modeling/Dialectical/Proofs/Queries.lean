import Dialectical.Proofs.Inclusions
import Dialectical.Proofs.Reasoners

/-!
# What the queries answer

Each query about models asks a pipeline of its own, and what a pipeline lists is known
(`Reasoner.lists_assemble`). So an answer is that there is a model with a property, or that there is
none, and the model that is shown has the property.

For credulous acceptance the pipeline lists the models that extend the argument's being satisfied.
These are the models that satisfy it (`Interpretation.set_blank_le_iff`), and it makes no difference
to them that the search was restricted: a preferred interpretation that extends the given one is
maximal among all admissible interpretations, not only among those that extend it.
-/

namespace Dialectical

open Act

variable {σ : Type} {e : Engine} {s : σ} {given : Option Interpretation}

/-- What extends the interpretation in which one argument is satisfied and no other is decided. -/
theorem Interpretation.set_blank_le_iff {n a : Nat} {I : Interpretation} (hsize : I.size = n)
    (ha : a < n) : (blank n).set a .satisfied ≤ I ↔ I.isSatisfied a := by
  have hundecided : (blank n).status? a = some .undecided :=
    undecided_of_not_decides (by rwa [size_blank]) fun _ ↦ not_decides_blank
  have hset : (blank n).set a (.ofBool true) ≤ I ↔ blank n ≤ I ∧ I.Decides a true :=
    set_le_iff hundecided
  rw [isSatisfied_iff]
  exact hset.trans (and_iff_right (blank_le hsize))

namespace Reasoner

/-! ### Single queries -/

/-- All models that extend the given interpretation are listed. -/
theorem ensures_modelsExtending (R : Reasoner) (hS : R.setting.Fits) (he : e.Sound)
    (hgiven : ∀ J ∈ given, J.size = R.setting.framework.size) :
    (R.modelsExtending given).Ensures e s
      (fun Is _ ↦ Is.Nodup ∧ ∀ I, I ∈ Is ↔
        R.setting.framework.IsModel R.semantics I ∧ ∀ J ∈ given, J ≤ I) fun _ ↦ True :=
  (ensures_withPipeline (R.lists_assemble hS he hgiven).ensures_all).weaken fun _ _ h ↦ h.1

/-- There is a first model if there is one at all. -/
theorem ensures_model? (R : Reasoner) (hS : R.setting.Fits) (he : e.Sound) : R.model?.Ensures e s
    (fun I? s' ↦ (I?.isSome ↔ ∃ I, R.setting.framework.IsModel R.semantics I) ∧
      (∀ I ∈ I?, R.setting.framework.IsModel R.semantics I) ∧ s' = s) fun _ ↦ True := by
  have hlists := R.lists_assemble hS he Framework.size_eq_of_none
  refine (ensures_withPipeline hlists.ensures_next).weaken fun I? _ h ↦ ?_
  obtain ⟨⟨hsome, hmodel⟩, hsame⟩ := h
  refine ⟨hsome.trans (exists_congr fun I ↦ and_iff_left (by simp)), fun I hI ↦ ?_, hsame⟩
  exact (hmodel I hI).1

/-- An argument is credulously accepted if a model extends its being satisfied. -/
theorem ensures_credulous (R : Reasoner) (hS : R.setting.Fits) (he : e.Sound) (a : Nat) :
    (R.credulous a).Ensures e s
      (fun A s' ↦ (A.accepted ↔ ∃ I, R.setting.framework.IsModel R.semantics I ∧
          (Interpretation.blank R.setting.framework.size).set a .satisfied ≤ I) ∧
        A.certificate.isSome = A.accepted ∧
        (∀ I ∈ A.certificate, R.setting.framework.IsModel R.semantics I ∧
          (Interpretation.blank R.setting.framework.size).set a .satisfied ≤ I) ∧ s' = s)
      fun _ ↦ True := by
  have hgiven : ∀ J ∈ some ((Interpretation.blank R.setting.framework.size).set a .satisfied),
      J.size = R.setting.framework.size := by simp
  have hlists := R.lists_assemble hS he hgiven
  refine (ensures_withPipeline hlists.ensures_next).bind fun I? s' h ↦ ensures_pure.2 ?_
  obtain ⟨⟨hsome, hmodel⟩, hsame⟩ := h
  simp only [Option.mem_some_iff, forall_eq'] at hsome hmodel
  exact ⟨hsome, rfl, hmodel, hsame⟩

/-- An argument is skeptically accepted if no model leaves it unsatisfied or undecided. -/
theorem ensures_skeptical (R : Reasoner) (hS : R.setting.Fits) (he : e.Sound) (a : Nat) :
    (R.skeptical a).Ensures e s
      (fun A s' ↦ (A.accepted ↔ ∀ I, R.setting.framework.IsModel R.semantics I → I.isSatisfied a) ∧
        A.certificate.isNone = A.accepted ∧
        (∀ I ∈ A.certificate, R.setting.framework.IsModel R.semantics I ∧ ¬I.isSatisfied a) ∧
        s' = s) fun _ ↦ True := by
  have hlists := R.lists_assemble hS he Framework.size_eq_of_none
  refine (ensures_withPipeline (hlists.ensures_find fun I ↦ !I.isSatisfied a)).bind
    fun I? s' h ↦ ensures_pure.2 ?_
  obtain ⟨⟨hsome, hmodel⟩, hsame⟩ := h
  have hnone : I?.isNone ↔ ¬I?.isSome :=
    Option.isNone_iff_eq_none.trans Option.not_isSome_iff_eq_none.symm
  refine ⟨(hnone.trans (not_congr hsome)).trans ?_, rfl, fun I hI ↦ ?_, hsame⟩
  · simp
  · simpa using hmodel I hI

/-! ### Answers and certificates -/

section

variable (F : Framework) (semantics : Semantics) (k a : Nat)

/-- The run of a query for all models. -/
theorem exists_models (he : e.Correct) (s : σ) (j : Journal) :
    ∃ Is i, (Reasoner.models { setting := .of F, semantics, k }).run e s j = ⟨.ok Is, s, i⟩ ∧
      Is.Nodup ∧ ∀ I, I ∈ Is ↔ F.IsModel semantics I := by
  have hlists := lists_assemble { setting := .of F, semantics, k } (Setting.fits_of F) he.sound
    Framework.size_eq_of_none
  obtain ⟨Is, i, hrun, hnodup, hIs⟩ := exists_modelsExtending hlists.ensures_all he.decisive s j
  exact ⟨Is, i, hrun, hnodup, fun I ↦ (hIs I).trans (and_iff_left (by simp))⟩

/-- The run of a credulous query. -/
theorem exists_credulous (he : e.Correct) (ha : a < F.size) (s : σ) (j : Journal) :
    ∃ A i, (Reasoner.credulous { setting := .of F, semantics, k } a).run e s j = ⟨.ok A, s, i⟩ ∧
      (A.accepted ↔ ∃ I, F.IsModel semantics I ∧ I.isSatisfied a) ∧
      A.certificate.isSome = A.accepted ∧
      ∀ I ∈ A.certificate, F.IsModel semantics I ∧ I.isSatisfied a := by
  obtain ⟨A, s', i, hrun, haccepted, hsome, hcertificate, rfl⟩ :=
    (ensures_credulous { setting := .of F, semantics, k } (Setting.fits_of F) he.sound
      a).exists_ok he.decisive j
  have hextends : ∀ I, F.IsModel semantics I ∧ (Interpretation.blank F.size).set a .satisfied ≤ I ↔
      F.IsModel semantics I ∧ I.isSatisfied a :=
    fun I ↦ and_congr_right fun hI ↦ Interpretation.set_blank_le_iff hI.size_eq ha
  exact ⟨A, i, hrun, haccepted.trans (exists_congr hextends), hsome,
    fun I hI ↦ (hextends I).1 (hcertificate I hI)⟩

/-- The run of a skeptical query. -/
theorem exists_skeptical (he : e.Correct) (s : σ) (j : Journal) :
    ∃ A i, (Reasoner.skeptical { setting := .of F, semantics, k } a).run e s j = ⟨.ok A, s, i⟩ ∧
      (A.accepted ↔ ∀ I, F.IsModel semantics I → I.isSatisfied a) ∧
      A.certificate.isNone = A.accepted ∧
      ∀ I ∈ A.certificate, F.IsModel semantics I ∧ ¬I.isSatisfied a := by
  obtain ⟨A, s', i, hrun, haccepted, hnone, hcertificate, rfl⟩ :=
    (ensures_skeptical { setting := .of F, semantics, k } (Setting.fits_of F) he.sound
      a).exists_ok he.decisive j
  exact ⟨A, i, hrun, haccepted, hnone, hcertificate⟩

end

/-- **What the queries answer.** An argument is credulously accepted if and only if some model
satisfies it, and such a model is shown; it is skeptically accepted if and only if every model
satisfies it, and otherwise a model is shown that does not. A model is found if there is one, and
only under two of the semantics there may be none. -/
theorem answers_certified (F : Framework) (semantics : Semantics) (k a : Nat) (ha : a < F.size)
    (e : Engine) (he : e.Correct) (s : σ) (j : Journal) :
    (∃ A i, (Reasoner.credulous { setting := .of F, semantics, k } a).run e s j = ⟨.ok A, s, i⟩ ∧
      (A.accepted ↔ ∃ I, F.IsModel semantics I ∧ I.isSatisfied a) ∧
      A.certificate.isSome = A.accepted ∧
      ∀ I ∈ A.certificate, F.IsModel semantics I ∧ I.isSatisfied a) ∧
    (∃ A i, (Reasoner.skeptical { setting := .of F, semantics, k } a).run e s j = ⟨.ok A, s, i⟩ ∧
      (A.accepted ↔ ∀ I, F.IsModel semantics I → I.isSatisfied a) ∧
      A.certificate.isNone = A.accepted ∧
      ∀ I ∈ A.certificate, F.IsModel semantics I ∧ ¬I.isSatisfied a) ∧
    ∃ I? i, (Reasoner.model? { setting := .of F, semantics, k }).run e s j = ⟨.ok I?, s, i⟩ ∧
      (∀ I ∈ I?, F.IsModel semantics I) ∧
      (I? = none ↔ ¬∃ I, F.IsModel semantics I) ∧
      (semantics ≠ .stable → semantics ≠ .twoValued → I? ≠ none) := by
  refine ⟨exists_credulous F semantics k a he ha s j, exists_skeptical F semantics k a he s j, ?_⟩
  obtain ⟨I?, s', i, hrun, hsome, hmodel, rfl⟩ :=
    (ensures_model? { setting := .of F, semantics, k } (Setting.fits_of F) he.sound).exists_ok
      he.decisive j
  have hnone : I? = none ↔ ¬∃ I, F.IsModel semantics I :=
    Option.not_isSome_iff_eq_none.symm.trans (not_congr hsome)
  refine ⟨I?, i, hrun, hmodel, hnone, fun hstable htwoValued h ↦ hnone.1 h ?_⟩
  exact F.exists_isModel hstable htwoValued

/-- The case of two arguments that exclude each other, under the preferred semantics: either of them
may be satisfied, so the first one is accepted credulously. -/
theorem answers_certified_mutualExclusion :
    0 < Framework.mutualExclusion.size ∧ Engine.exhaustive.Correct ∧
    ∃ A i, (Reasoner.credulous { setting := .of .mutualExclusion, semantics := .preferred, k := 2 }
        0).run .exhaustive () .empty = ⟨.ok A, (), i⟩ ∧
      A.accepted ∧
      ∀ I ∈ A.certificate, Framework.mutualExclusion.Preferred I ∧ I.isSatisfied 0 := by
  have he := Engine.exhaustive_correct
  have ha : 0 < Framework.mutualExclusion.size := by decide
  obtain ⟨A, i, hrun, haccepted, -, hcertificate⟩ :=
    (answers_certified .mutualExclusion .preferred 2 0 ha .exhaustive he () .empty).1
  have hmodel : Framework.mutualExclusion.Complete ⟨[.satisfied, .unsatisfied]⟩ :=
    Framework.complete_iff.2 (by decide)
  have hexists := hmodel.admissible.exists_preferred_isSatisfied (a := 0) rfl
  exact ⟨ha, he, A, i, hrun, haccepted.2 hexists, hcertificate⟩

/-! ### Answers under several semantics -/

/-- **How the listed models are related.** Each list is the answer of a query of its own, with an
engine, a bound and a journal of its own. -/
theorem models_related (F : Framework) (k : Semantics → Nat) (e : Semantics → Engine)
    (he : ∀ semantics, (e semantics).Correct) (s : σ) (j : Semantics → Journal) :
    ∃ L : Semantics → List Interpretation,
      (∀ semantics, ∃ i,
        (Reasoner.models { setting := .of F, semantics, k := k semantics }).run (e semantics) s
          (j semantics) = ⟨.ok (L semantics), s, i⟩) ∧
      L .stable ⊆ L .twoValued ∧ L .stable ⊆ L .preferred ∧ L .twoValued ⊆ L .preferred ∧
      L .preferred ⊆ L .complete ∧ L .ground ⊆ L .complete ∧ L .complete ⊆ L .admissible ∧
      L .admissible ⊆ L .conflictFree ∧ L .naive ⊆ L .conflictFree ∧
      (∀ I, I ∈ L .preferred ↔ Maximal (· ∈ L .admissible) I) ∧
      (∀ I, I ∈ L .naive ↔ Maximal (· ∈ L .conflictFree) I) ∧
      ∃ G, L .ground = [G] ∧ ∀ a < F.size, ∀ t, G.status? a = some t ↔
        (∀ I ∈ L .complete, I.status? a = some t) ∨
          t = .undecided ∧ ¬∃ u, ∀ I ∈ L .complete, I.status? a = some u := by
  choose L i hrun hnodup hmem using fun semantics ↦
    exists_models F semantics (k semantics) (he semantics) s (j semantics)
  have hsub : ∀ {semantics semantics'}, (∀ I, F.IsModel semantics I → F.IsModel semantics' I) →
      L semantics ⊆ L semantics' := fun h I hI ↦ (hmem _ I).2 (h I ((hmem _ I).1 hI))
  have hadmissible : (· ∈ L .admissible) = F.Admissible := funext fun I ↦ propext (hmem _ I)
  have hconflictFree : (· ∈ L .conflictFree) = F.ConflictFree := funext fun I ↦ propext (hmem _ I)
  have hcomplete : ∀ {p : Interpretation → Prop},
      (∀ I ∈ L .complete, p I) ↔ ∀ I, F.Complete I → p I :=
    forall_congr' fun I ↦ imp_congr_left (hmem .complete I)
  refine ⟨L, fun semantics ↦ ⟨i semantics, hrun semantics⟩, hsub fun _ h ↦ h.toTwoValuedModel,
    hsub fun _ h ↦ h.toTwoValuedModel.preferred, hsub fun _ h ↦ h.preferred,
    hsub fun _ h ↦ h.complete, hsub fun _ h ↦ h.complete, hsub fun _ h ↦ h.admissible,
    hsub fun _ h ↦ h.conflictFree, hsub fun _ h ↦ h.prop, ?_, ?_, ?_⟩
  · exact fun I ↦ hadmissible ▸ hmem .preferred I
  · exact fun I ↦ hconflictFree ▸ hmem .naive I
  · obtain ⟨G, hG⟩ := F.exists_isGround
    refine ⟨G, ?_, fun a ha t ↦ ?_⟩
    · have hground : ∀ I, I ∈ L .ground ↔ I ∈ [G] := fun I ↦
        (hmem .ground I).trans ⟨fun hI ↦ List.mem_singleton.2 (hI.unique hG),
          fun hI ↦ List.mem_singleton.1 hI ▸ hG⟩
      have hperm : (L .ground).Perm [G] :=
        (List.perm_ext_iff_of_nodup (hnodup .ground) (List.nodup_singleton G)).2 hground
      exact List.perm_singleton.1 hperm
    · simp only [hcomplete]
      exact hG.status?_eq_iff ha t

/-- The case of two arguments that exclude each other. -/
theorem models_related_mutualExclusion :
    (∀ _ : Semantics, Engine.exhaustive.Correct) ∧
    ∃ L : Semantics → List Interpretation,
      (∀ semantics, ∃ i, (Reasoner.models { setting := .of .mutualExclusion, semantics }).run
        .exhaustive () .empty = ⟨.ok (L semantics), (), i⟩) ∧
      L .stable ⊆ L .preferred ∧ (∀ I, I ∈ L .naive ↔ Maximal (· ∈ L .conflictFree) I) ∧
      ∃ G, L .ground = [G] := by
  have he : ∀ _ : Semantics, Engine.exhaustive.Correct := fun _ ↦ Engine.exhaustive_correct
  obtain ⟨L, hrun, -, hstable, -, -, -, -, -, -, -, hnaive, G, hground, -⟩ :=
    models_related .mutualExclusion (fun _ ↦ defaultBound) (fun _ ↦ .exhaustive) he ()
      fun _ ↦ .empty
  exact ⟨he, L, hrun, hstable, hnaive, G, hground⟩

/-- **How acceptance is related.** Each answer is that of a query of its own, with an engine, a
bound and a journal of its own. -/
theorem acceptance_related (F : Framework) (a : Nat) (ha : a < F.size)
    (k k' : Semantics → Nat) (e e' : Semantics → Engine)
    (he : ∀ semantics, (e semantics).Correct) (he' : ∀ semantics, (e' semantics).Correct) (s : σ)
    (j j' : Semantics → Journal) :
    ∃ credulous skeptical : Semantics → Acceptance,
      (∀ semantics, ∃ i,
        (Reasoner.credulous { setting := .of F, semantics, k := k semantics } a).run
          (e semantics) s (j semantics) = ⟨.ok (credulous semantics), s, i⟩) ∧
      (∀ semantics, ∃ i,
        (Reasoner.skeptical { setting := .of F, semantics, k := k' semantics } a).run
          (e' semantics) s (j' semantics) = ⟨.ok (skeptical semantics), s, i⟩) ∧
      (credulous .admissible).accepted = (credulous .complete).accepted ∧
      (credulous .complete).accepted = (credulous .preferred).accepted ∧
      (skeptical .complete).accepted = (skeptical .ground).accepted ∧
      (skeptical .complete).accepted = (credulous .ground).accepted ∧
      ((skeptical .complete).accepted → (skeptical .preferred).accepted ∧
        (skeptical .stable).accepted ∧ (skeptical .twoValued).accepted) := by
  choose credulous i hrun hcredulous _ using fun semantics ↦
    exists_credulous F semantics (k semantics) a (he semantics) ha s (j semantics)
  choose skeptical i' hrun' hskeptical _ using fun semantics ↦
    exists_skeptical F semantics (k' semantics) a (he' semantics) s (j' semantics)
  have hsome : ∀ {semantics semantics'},
      ((∃ I, F.IsModel semantics I ∧ I.isSatisfied a) ↔
        ∃ I, F.IsModel semantics' I ∧ I.isSatisfied a) →
      (credulous semantics).accepted = (credulous semantics').accepted :=
    fun h ↦ Bool.eq_iff_iff.2 ((hcredulous _).trans (h.trans (hcredulous _).symm))
  have hground := Framework.forall_complete_iff (F := F) (a := a)
  refine ⟨credulous, skeptical, fun semantics ↦ ⟨i semantics, hrun semantics⟩,
    fun semantics ↦ ⟨i' semantics, hrun' semantics⟩, hsome Framework.exists_admissible_iff.1,
    hsome Framework.exists_admissible_iff.2, ?_, ?_, fun h ↦ ?_⟩
  · exact Bool.eq_iff_iff.2 ((hskeptical _).trans (hground.1.trans (hskeptical .ground).symm))
  · exact Bool.eq_iff_iff.2 ((hskeptical _).trans (hground.2.trans (hcredulous .ground).symm))
  · have hall : ∀ I, F.Complete I → I.isSatisfied a := (hskeptical .complete).1 h
    refine ⟨(hskeptical .preferred).2 fun I hI ↦ hall I ?_,
      (hskeptical .stable).2 fun I hI ↦ hall I ?_, (hskeptical .twoValued).2 fun I hI ↦ hall I ?_⟩
    · exact Framework.Preferred.complete hI
    · exact (Framework.Stable.toTwoValuedModel hI).preferred.complete
    · exact (Framework.TwoValuedModel.preferred hI).complete

/-- The case of two arguments that exclude each other: every semantics is asked about the first. -/
theorem acceptance_related_mutualExclusion :
    0 < Framework.mutualExclusion.size ∧ (∀ _ : Semantics, Engine.exhaustive.Correct) ∧
    ∃ credulous skeptical : Semantics → Acceptance,
      (∀ semantics, ∃ i, (Reasoner.credulous { setting := .of .mutualExclusion, semantics } 0).run
        .exhaustive () .empty = ⟨.ok (credulous semantics), (), i⟩) ∧
      (∀ semantics, ∃ i, (Reasoner.skeptical { setting := .of .mutualExclusion, semantics } 0).run
        .exhaustive () .empty = ⟨.ok (skeptical semantics), (), i⟩) ∧
      (credulous .admissible).accepted = (credulous .complete).accepted ∧
      (skeptical .complete).accepted = (skeptical .ground).accepted := by
  have he : ∀ _ : Semantics, Engine.exhaustive.Correct := fun _ ↦ Engine.exhaustive_correct
  have ha : 0 < Framework.mutualExclusion.size := by decide
  obtain ⟨credulous, skeptical, hrun, hrun', hcredulous, -, hskeptical, -⟩ :=
    acceptance_related .mutualExclusion 0 ha (fun _ ↦ defaultBound) (fun _ ↦ defaultBound)
      (fun _ ↦ .exhaustive) (fun _ ↦ .exhaustive) he he () (fun _ ↦ .empty) fun _ ↦ .empty
  exact ⟨ha, he, credulous, skeptical, hrun, hrun', hcredulous, hskeptical⟩

end Reasoner

end Dialectical
