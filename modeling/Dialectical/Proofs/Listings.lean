import Dialectical.Proofs.Plans
import Dialectical.Proofs.Results
import Dialectical.Reasoner

/-!
# What pipelines list

The pipelines of the semantics list the models of the semantics that extend the given
interpretation (`Reasoner.lists_assemble`). Each of them has a plan, so this only says which plan it
is and what the models of the plan are. **Pruners do not appear in what is listed**: the pipelines
are shown with any list of pruners wherever these may be added, and the models that they list are
always the same.
-/

namespace Dialectical

variable {e : Engine} {S : Setting} {I G : Interpretation} {given : Option Interpretation}

/-! ### Models -/

namespace Framework

variable {F : Framework} {c : Criterion}

/-- The interpretation is a model of the semantics. -/
def IsModel (F : Framework) : Semantics → Interpretation → Prop
  | .conflictFree => F.ConflictFree
  | .naive => F.Naive
  | .admissible => F.Admissible
  | .complete => F.Complete
  | .preferred => F.Preferred
  | .stable => F.Stable
  | .twoValued => F.TwoValuedModel
  | .ground => F.IsGround

/-- Whatever the criterion is, what fulfils it is conflict-free. -/
theorem Fulfils.conflictFree (h : F.Fulfils (some c) I) : F.ConflictFree I := by
  cases c with
  | admissible => exact Admissible.conflictFree h
  | complete => exact (Complete.admissible h).conflictFree
  | naive => exact Maximal.prop h
  | preferred => exact (Maximal.prop h).conflictFree
  | stable => exact (Stable.toTwoValuedModel h).admissible.conflictFree

/-- With one exception it is also admissible. -/
theorem Fulfils.admissible (h : F.Fulfils (some c) I) (hc : c ≠ .naive) : F.Admissible I := by
  cases c with
  | admissible => exact h
  | complete => exact Complete.admissible h
  | naive => exact absurd rfl hc
  | preferred => exact Maximal.prop h
  | stable => exact (Stable.toTwoValuedModel h).admissible

theorem IsGround.complete (h : F.IsGround I) : F.Complete I := complete_iff.2 h.1

end Framework

namespace Generator

theorem mem_candidates_conflictFree : I ∈ candidates S .conflictFree given ↔
    S.framework.ConflictFree I ∧ ∀ J ∈ given, J ≤ I :=
  and_congr_right fun _ ↦ and_iff_right Goal.noConfusion

/-- The two-valued candidates are the two-valued models, since these are conflict-free and decide
everything. -/
theorem mem_candidates_twoValued : I ∈ candidates S .twoValued given ↔
    S.framework.TwoValuedModel I ∧ ∀ J ∈ given, J ≤ I := by
  have hscope : I ∈ scope .twoValued given ↔ I.isTwoValued ∧ ∀ J ∈ given, J ≤ I :=
    and_congr_left fun _ ↦ forall_prop_of_true rfl
  rw [Framework.twoValuedModel_iff, and_assoc, ← hscope]
  exact Iff.rfl

end Generator

namespace Pipeline

variable {goal : Goal} {c? : Option Criterion} {M M' : Interpretation → Prop} {p : Pipeline}

/-- What is listed may be said in other words. -/
theorem Lists.congr (h : p.Lists S e M) (hM : ∀ I, M I ↔ M' I) : p.Lists S e M' := by
  obtain ⟨hstage, hcandidates, P, hP, hp, hmodels, hresults⟩ := h
  exact ⟨hstage, hcandidates, P, hP, hp, fun I ↦ (hmodels I).trans (hM I),
    fun I ↦ (hresults I).trans (hM I)⟩

/-! ### Pipelines for one generator and one verifier -/

/-- A generator with pruners and a verifier that accepts admissible candidates only. -/
theorem lists_confined (hS : S.Fits) (he : e.Sound) (hgoal : goal ≠ .ground)
    (hgiven : ∀ J ∈ given, J.size = S.framework.size) (ks : List Nat) (c? : Option Criterion)
    (hadm : ∀ I ∈ Generator.candidates S goal given,
      S.framework.Fulfils c? I → S.framework.Admissible I) :
    Lists S e (fun I ↦ I ∈ Generator.candidates S goal given ∧ S.framework.Fulfils c? I)
      { generator := .new goal given, pruners := Pruner.newAll ks, verifier := c?.map .new } where
  stage_eq := rfl
  candidates_eq := rfl
  exists_plan := by
    have hgives : (Source.confined S goal given).Gives S e (Generator.candidates S goal given)
        {I | I ∈ Generator.candidates S goal given ∧ S.framework.Fulfils c? I} :=
      Source.gives_confined hS he hgoal fun I hI ↦ ⟨hI.1.2, hadm I hI.1 hI.2⟩
    refine ⟨_, Plan.serves_filter hS he (fun I hI ↦ hI.1) hgives, ?_, fun _ ↦ Iff.rfl,
      fun _ ↦ Iff.rfl⟩
    exact ⟨Source.keeps_new_confined hS hgoal fun J hJ ↦ (hgiven J hJ).trans hS.size_eq.symm,
      Pruner.isFaithful_newAll S ks, Verifier.isReady_new hS e c?, rfl, rfl⟩

/-- A generator without pruners, and any verifier. -/
theorem lists_unpruned (hS : S.Fits) (he : e.Sound) (hgoal : goal ≠ .ground)
    (hgiven : ∀ J ∈ given, J.size = S.framework.size) (c? : Option Criterion) :
    Lists S e (fun I ↦ I ∈ Generator.candidates S goal given ∧ S.framework.Fulfils c? I)
      { generator := .new goal given, verifier := c?.map .new } where
  stage_eq := rfl
  candidates_eq := rfl
  exists_plan := by
    have hgives : (Source.unpruned S goal given).Gives S e (Generator.candidates S goal given)
        {I | I ∈ Generator.candidates S goal given ∧ S.framework.Fulfils c? I} :=
      Source.gives_unpruned hgoal fun I hI ↦ hI.1
    refine ⟨_, Plan.serves_filter hS he (fun I hI ↦ hI.1) hgives, ?_, fun _ ↦ Iff.rfl,
      fun _ ↦ Iff.rfl⟩
    exact ⟨Source.keeps_new_unpruned hS hgoal fun J hJ ↦ (hgiven J hJ).trans hS.size_eq.symm,
      rfl, Verifier.isReady_new hS e c?, rfl, rfl⟩

/-! ### The pipelines of the semantics -/

/-- All conflict-free interpretations. -/
theorem lists_conflictFree (hS : S.Fits) (he : e.Sound)
    (hgiven : ∀ J ∈ given, J.size = S.framework.size) :
    Lists S e (fun I ↦ S.framework.ConflictFree I ∧ ∀ J ∈ given, J ≤ I)
      { generator := .new .conflictFree given } :=
  (lists_unpruned hS he Goal.noConfusion hgiven none).congr fun _ ↦
    (and_iff_left trivial).trans Generator.mem_candidates_conflictFree

/-- A criterion selects all that fulfils it from the conflict-free candidates, since what fulfils it
is conflict-free. -/
theorem mem_candidates_and_fulfils {c : Criterion} :
    I ∈ Generator.candidates S .conflictFree given ∧ S.framework.Fulfils (some c) I ↔
      S.framework.Fulfils (some c) I ∧ ∀ J ∈ given, J ≤ I := by
  rw [Generator.mem_candidates_conflictFree]
  constructor
  · exact fun h ↦ ⟨h.2, h.1.2⟩
  · exact fun h ↦ ⟨⟨h.1.conflictFree, h.2⟩, h.1⟩

/-- All naive interpretations. -/
theorem lists_naive (hS : S.Fits) (he : e.Sound)
    (hgiven : ∀ J ∈ given, J.size = S.framework.size) :
    Lists S e (fun I ↦ S.framework.Naive I ∧ ∀ J ∈ given, J ≤ I)
      { generator := .new .conflictFree given, verifier := some (.new .naive) } :=
  (lists_unpruned hS he Goal.noConfusion hgiven (some .naive)).congr fun _ ↦
    mem_candidates_and_fulfils

/-- Conflict-free candidates that are verified by a criterion for admissible interpretations. -/
theorem lists_verifying (hS : S.Fits) (he : e.Sound)
    (hgiven : ∀ J ∈ given, J.size = S.framework.size) (ks : List Nat) {c : Criterion}
    (hc : c ≠ .naive) :
    Lists S e (fun I ↦ S.framework.Fulfils (some c) I ∧ ∀ J ∈ given, J ≤ I)
      { generator := .new .conflictFree given, pruners := Pruner.newAll ks
        verifier := some (.new c) } :=
  (lists_confined hS he Goal.noConfusion hgiven ks (some c) fun _ _ h ↦ h.admissible hc).congr
    fun _ ↦ mem_candidates_and_fulfils

/-- Admissible candidates that are maximized, with any bounds on enumeration. -/
theorem lists_maximizing (hS : S.Fits) (he : e.Sound)
    (hgiven : ∀ J ∈ given, J.size = S.framework.size) (ks : List Nat) (k : Nat) :
    Lists S e (fun I ↦ S.framework.Preferred I ∧ ∀ J ∈ given, J ≤ I)
      { generator := .new .conflictFree given, pruners := Pruner.newAll ks
        verifier := some (.new .admissible), late := [.maximizer { k }] } where
  stage_eq := rfl
  candidates_eq := rfl
  exists_plan := by
    have hgives : (Source.confined S .conflictFree given).Gives S e
        (Generator.candidates S .conflictFree given)
        {I | I ∈ Generator.candidates S .conflictFree given ∧ S.framework.Preferred I} :=
      Source.gives_confined hS he Goal.noConfusion fun I hI ↦ ⟨hI.1.2, hI.2.prop⟩
    refine ⟨_, Plan.serves_maximization hS he (fun I hI ↦ hI.1) ?_ hgives, ?_,
      fun I ↦ mem_candidates_and_fulfils (c := .preferred),
      fun I ↦ mem_candidates_and_fulfils (c := .preferred)⟩
    · exact fun I hI J hJ ↦ ⟨hJ.conflictFree hI.1, Generator.mem_scope_of_le hI.2 hJ.le⟩
    · refine ⟨Source.keeps_new_confined hS Goal.noConfusion
        fun J hJ ↦ (hgiven J hJ).trans hS.size_eq.symm, Pruner.isFaithful_newAll S ks,
        Verifier.isReady_new hS e (some .admissible), rfl, List.cons_ne_nil _ _, ?_⟩
      simpa using Processor.isReady_new S k

/-- Two-valued models. -/
theorem lists_twoValued (hS : S.Fits) (he : e.Sound)
    (hgiven : ∀ J ∈ given, J.size = S.framework.size) (ks : List Nat) :
    Lists S e (fun I ↦ S.framework.TwoValuedModel I ∧ ∀ J ∈ given, J ≤ I)
      { generator := .new .twoValued given, pruners := Pruner.newAll ks } :=
  (lists_confined hS he Goal.noConfusion hgiven ks none fun _ h _ ↦
    (Generator.mem_candidates_twoValued.1 h).1.admissible).congr fun _ ↦
      (and_iff_left trivial).trans Generator.mem_candidates_twoValued

/-- Two-valued models that are verified to be stable. -/
theorem lists_stable (hS : S.Fits) (he : e.Sound)
    (hgiven : ∀ J ∈ given, J.size = S.framework.size) (ks : List Nat) :
    Lists S e (fun I ↦ S.framework.Stable I ∧ ∀ J ∈ given, J ≤ I)
      { generator := .new .twoValued given, pruners := Pruner.newAll ks
        verifier := some (.new .stable) } := by
  refine (lists_confined hS he Goal.noConfusion hgiven ks (some .stable) fun _ h _ ↦
    (Generator.mem_candidates_twoValued.1 h).1.admissible).congr fun I ↦ ?_
  rw [Generator.mem_candidates_twoValued]
  constructor
  · exact fun h ↦ ⟨h.2, h.1.2⟩
  · exact fun h ↦ ⟨⟨h.1.toTwoValuedModel, h.2⟩, h.1⟩

/-- The ground interpretation, if it extends the given one. -/
theorem lists_ground (hS : S.Fits) (he : e.Sound)
    (hgiven : ∀ J ∈ given, J.size = S.framework.size) (ks : List Nat) :
    Lists S e (fun I ↦ S.framework.IsGround I ∧ ∀ J ∈ given, J ≤ I)
      { generator := .new .ground given, pruners := Pruner.newAll ks } where
  stage_eq := rfl
  candidates_eq := rfl
  exists_plan := by
    obtain ⟨G, hG⟩ := S.framework.exists_isGround
    have hground : ∀ I, I = G ↔ S.framework.IsGround I :=
      fun I ↦ ⟨fun h ↦ h ▸ hG, fun h ↦ h.unique hG⟩
    have hcf : ∀ I ∈ {I | I = G ∧ ∀ J ∈ given, J ≤ I}, S.framework.ConflictFree I := by
      rintro I ⟨rfl, -⟩
      exact hG.complete.admissible.conflictFree
    have hgives := Source.gives_ground (D := {I | I = G ∧ ∀ J ∈ given, J ≤ I})
      (M := {I | (I = G ∧ ∀ J ∈ given, J ≤ I) ∧ S.framework.Fulfils none I}) hS he hG hgiven
      (fun I hI hle ↦ ⟨hI, hle⟩) fun I hI ↦ hI.1
    refine ⟨_, Plan.serves_filter hS he hcf hgives, ?_, fun I ↦ ?_, fun I ↦ ?_⟩
    · exact ⟨Source.keeps_new_ground hS hG, Pruner.isFaithful_newAll S ks, rfl, rfl, rfl⟩
    · exact (and_iff_left trivial).trans (and_congr_left fun _ ↦ hground I)
    · exact (and_iff_left trivial).trans (and_congr_left fun _ ↦ hground I)

end Pipeline

/-- **The pipeline of a semantics** lists its models, with any bound on enumeration. -/
theorem Reasoner.lists_assemble (R : Reasoner) (hS : R.setting.Fits) (he : e.Sound)
    (hgiven : ∀ J ∈ given, J.size = R.setting.framework.size) :
    (R.assemble given).Lists R.setting e
      fun I ↦ R.setting.framework.IsModel R.semantics I ∧ ∀ J ∈ given, J ≤ I := by
  obtain ⟨S, semantics, k⟩ := R
  cases semantics with
  | conflictFree => exact Pipeline.lists_conflictFree hS he hgiven
  | naive => exact Pipeline.lists_naive hS he hgiven
  | admissible =>
    exact Pipeline.lists_verifying (c := .admissible) hS he hgiven [k] Criterion.noConfusion
  | complete =>
    exact Pipeline.lists_verifying (c := .complete) hS he hgiven [k] Criterion.noConfusion
  | preferred => exact Pipeline.lists_maximizing hS he hgiven [k] k
  | stable => exact Pipeline.lists_stable hS he hgiven []
  | twoValued => exact Pipeline.lists_twoValued hS he hgiven []
  | ground => exact Pipeline.lists_ground hS he hgiven []

end Dialectical
