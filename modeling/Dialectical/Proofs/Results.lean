import Dialectical.Proofs.Pipelines

/-!
# Results of pipelines

What is said of a pipeline between two requests is `Plan.Delivers`: its results so far may be
results and are distinct, and it stands somewhere between not being opened and having no more
(`Plan.Stands`). While it runs, nothing that is owed leads to a result, each of the models is a
result or is owed, and there is room for what is owed below the bound on candidates. A request keeps
all of this (`Plan.Delivers.next`), so it may be made at any stage and any number of times:

* until there is no result left, which gives all models (`Plan.Delivers.collect`);
* until there is a result with some property (`Plan.Delivers.findWithin`);
* any number of times, with no result twice and none after the first "none"
  (`Plan.Delivers.mapM_next`).

After a solver gave up, a model may be lost but the rest is still true. The models that are not lost
are therefore a parameter `T`, and after a fault this is empty.
-/

namespace Dialectical

open Act

variable {e : Engine} {S : Setting}

namespace Pipeline

variable {p p' : Pipeline}

namespace Plan

variable {P : Plan} {R R' T : Set Interpretation} {L : List Interpretation} {J : Interpretation}

/-! ### Between requests -/

/-- Where a pipeline stands when the results so far are `L`, and none of `T` is lost. -/
inductive Stands (P : Plan) (e : Engine) (S : Setting) (T : Set Interpretation)
    (L : List Interpretation) (p : Pipeline) : Prop
  | idle (stage : p.stage = .idle) (candidates : p.candidates = 0) (results : L = [])
      (unopened : P.Unopened e S p)
  | running (R : Set Interpretation) (isOpen : p.IsOpen) (runs : P.Runs e S p R)
      (not_leads : ∀ J ∈ L, ∀ X ∈ R, ¬P.leads X J) (rest : ∀ J ∈ T, J ∈ L ∨ J ∈ R)
      (count : p.candidates + R.ncard < S.budget)
  | ended (stage : p.stage = .done) (rest : ∀ J ∈ T, J ∈ L) (count : p.candidates < S.budget)

/-- What is true of a pipeline with the results `L` so far. -/
structure Delivers (P : Plan) (e : Engine) (S : Setting) (T : Set Interpretation)
    (L : List Interpretation) (p : Pipeline) : Prop where
  mem_results : ∀ J ∈ L, J ∈ P.results
  nodup : L.Nodup
  stands : P.Stands e S T L p

/-- A pipeline that was not opened has no results yet. -/
theorem Unopened.delivers (h : P.Unopened e S p) (hstage : p.stage = .idle)
    (hcandidates : p.candidates = 0) : P.Delivers e S T [] p where
  mem_results _ hJ := absurd hJ List.not_mem_nil
  nodup := List.nodup_nil
  stands := .idle hstage hcandidates rfl h

/-- There are never more candidates than interpretations. -/
theorem Delivers.candidates_lt (h : P.Delivers e S T L p) : p.candidates < S.budget := by
  cases h.stands with
  | idle _ hcandidates => exact hcandidates ▸ Nat.succ_pos _
  | running R _ _ _ _ hcount => exact (Nat.le_add_right _ _).trans_lt hcount
  | ended _ _ hcount => exact hcount

/-- Nor are there more results. -/
theorem Delivers.length_lt (h : P.Delivers e S T L p) (hP : P.Serves e S) :
    L.length < S.budget := by
  rw [← List.toFinset_card_of_nodup h.nodup, ← Set.ncard_coe_finset]
  refine Setting.ncard_lt_budget fun I hI ↦ hP.size_eq I (h.mem_results I ?_)
  exact List.mem_toFinset.1 hI

/-- When there are no more results, all models were results. -/
theorem Delivers.mem_of_done (h : P.Delivers e S T L p) (hstage : p.stage = .done) :
    ∀ J ∈ T, J ∈ L := by
  cases h.stands with
  | idle hidle => exact absurd (hidle.symm.trans hstage) Stage.noConfusion
  | running R hopen =>
    rcases hopen with hopen | hopen <;> exact absurd (hopen.symm.trans hstage) Stage.noConfusion
  | ended _ hrest => exact hrest

/-! ### A request -/

/-- What is found was not a result before. -/
theorem Yields.nodup_append (h : P.Yields R J R') (hnodup : L.Nodup)
    (hnot : ∀ K ∈ L, ∀ X ∈ R, ¬P.leads X K) : (L ++ [J]).Nodup := by
  obtain ⟨I, hI, hleads⟩ := h.exists_leads
  refine List.nodup_append.2 ⟨hnodup, List.nodup_singleton J, ?_⟩
  rintro K hK _ hJ rfl
  rw [List.mem_singleton.1 hJ] at hK
  exact hnot J hK I hI hleads

/-- Nothing that remains leads to a result, be it an earlier one or the last. -/
theorem Yields.not_leads_append (h : P.Yields R J R') (hR' : R' ⊆ R)
    (hnot : ∀ K ∈ L, ∀ X ∈ R, ¬P.leads X K) : ∀ K ∈ L ++ [J], ∀ X ∈ R', ¬P.leads X K := by
  intro K hK X hX
  rcases List.mem_append.1 hK with hK | hK
  · exact hnot K hK X (hR' hX)
  · rw [List.mem_singleton.1 hK]
    exact h.not_leads X hX

/-- And a model that is still to come was found just now, or is led to by what remains. -/
theorem Yields.rest_append (h : P.Yields R J R') (hT : T ⊆ P.models)
    (hrest : ∀ K ∈ T, K ∈ L ∨ K ∈ R) : ∀ K ∈ T, K ∈ L ++ [J] ∨ K ∈ R' := by
  intro K hK
  rcases hrest K hK with hKL | hKR
  · exact .inl (List.mem_append_left _ hKL)
  · rcases h.rest K hKR (hT hK) with rfl | hKR'
    · exact .inl (by simp)
    · exact .inr hKR'

/-- How a request ends: with one more result, or with a pipeline that is closed. -/
def Answers (P : Plan) (e : Engine) (S : Setting) (T : Set Interpretation)
    (L : List Interpretation) (J? : Option Interpretation) (p : Pipeline) : Prop :=
  match J? with
  | none => p.stage = .done ∧ P.Delivers e S T L p
  | some J => P.Delivers e S T (L ++ [J]) p

/-- **A result** was not a result before, and there is none when all models were. -/
theorem Runs.ensures_result (h : P.Runs e S p R) (hP : P.Serves e S) (hT : T ⊆ P.models)
    (hmem : ∀ J ∈ L, J ∈ P.results) (hnodup : L.Nodup) (hnot : ∀ J ∈ L, ∀ X ∈ R, ¬P.leads X J)
    (hrest : ∀ J ∈ T, J ∈ L ∨ J ∈ R) (hcount : p.candidates + R.ncard < S.budget) :
    Ensures e (do
        match ← search S S.budget with
        | some I =>
          modify fun p ↦ { p with results := p.results + 1, stage := .generating }
          return some I
        | none =>
          let p ← get
          log .info .pipeline
            ("pipeline exhausted after " ++ toString p.candidates ++ " candidates and "
              ++ toString p.results ++ " results")
          close
          return none) p
      (P.Answers e S T L) fun p' ↦ P.Delivers e S ∅ L p' := by
  have hsearch := h.ensures_search hP ((Nat.le_add_left _ _).trans_lt hcount)
  refine (hsearch.weakenFault fun p' h' ↦ ?_).bind fun J? p' h' ↦ ?_
  · obtain ⟨R', hR'⟩ := h'
    exact ⟨hmem, hnodup, .running R' hR'.isOpen hR'.runs
      (fun J hJ X hX ↦ hnot J hJ X (hR'.subset hX)) (fun J hJ ↦ absurd hJ (Set.notMem_empty J))
      (hR'.count.trans_lt hcount)⟩
  · obtain ⟨R', hR', hfound⟩ := h'
    have hcount' := hR'.count.trans_lt hcount
    cases J? with
    | none =>
      have hall : ∀ J ∈ T, J ∈ L := fun J hJ ↦
        (hrest J hJ).resolve_right fun hJR ↦ hfound J hJR (hT hJ)
      rw [ensures_get_bind]
      refine Ensures.log_bind (ensures_close.bind fun _ p'' hp'' ↦ ensures_pure.2 ?_)
      refine ⟨hp''.1, hmem, hnodup, .ended hp''.1 hall ?_⟩
      exact hp''.2 ▸ (Nat.le_add_right _ _).trans_lt hcount'
    | some J =>
      have hruns : P.Runs e S { p' with results := p'.results + 1, stage := .generating } R' :=
        ⟨{ hR'.runs.suits with }, hR'.runs.subset⟩
      rw [ensures_modify_bind]
      refine ensures_pure.2 ⟨?_, hfound.nodup_append hnodup hnot, .running R' (.inl rfl) hruns
        (hfound.not_leads_append hR'.subset hnot) (hfound.rest_append hT hrest) hcount'⟩
      simpa [or_imp, forall_and] using ⟨hmem, hfound.mem_results⟩

/-- **A request**, at any stage. -/
theorem Delivers.next (h : P.Delivers e S T L p) (hP : P.Serves e S) (hT : T ⊆ P.models) :
    (Pipeline.next S).Ensures e p (P.Answers e S T L) fun p' ↦ P.Delivers e S ∅ L p' := by
  rw [Pipeline.next, ensures_get_bind]
  obtain ⟨hmem, hnodup, hstands⟩ := h
  cases hstands with
  | idle hstage hcandidates hnil hp =>
    subst hnil
    rw [hstage]
    refine ((hp.ensures_start hP).weakenFault fun p' h' ↦ ?_).bind fun _ p' h' ↦ ?_
    · have hstage' : p'.stage = .idle := (congrArg (·.1) h'.2).trans hstage
      have hcandidates' : p'.candidates = 0 := (congrArg (·.2.1) h'.2).trans hcandidates
      exact ⟨hmem, hnodup, .idle hstage' hcandidates' rfl h'.1⟩
    · obtain ⟨⟨R, hR, hmodels⟩, hledger⟩ := h'
      have hcandidates' : p'.candidates = 0 := (congrArg (·.2.1) hledger).trans hcandidates
      have hcount : p'.candidates + R.ncard < S.budget := by
        rw [hcandidates', Nat.zero_add]
        exact Setting.ncard_lt_budget (hR.suits.generator.size_eq hP.fits)
      exact hR.ensures_result hP hT hmem hnodup (by simp) (fun J hJ ↦ .inr (hmodels (hT hJ))) hcount
  | running R hopen hR hnot hrest hcount =>
    rcases hopen with hstage | hstage <;> rw [hstage] <;>
      exact hR.ensures_result hP hT hmem hnodup hnot hrest hcount
  | ended hstage hrest hcount =>
    rw [hstage]
    exact ensures_pure.2 ⟨hstage, hmem, hnodup, .ended hstage hrest hcount⟩

/-! ### Repeated requests -/

/-- **Requests until there is no result** give all models. There may be more requests than results.
-/
theorem Delivers.collect (h : P.Delivers e S T L p) (hP : P.Serves e S) (hT : T ⊆ P.models)
    {n : Nat} (hn : S.budget ≤ L.length + n) :
    (Act.collect (Pipeline.next S) n).Ensures e p
      (fun Is p' ↦ P.Delivers e S T (L ++ Is) p' ∧ p'.stage = .done)
      fun p' ↦ ∃ L', P.Delivers e S ∅ L' p' := by
  induction n generalizing p L with
  | zero => exact absurd hn (Nat.not_le.2 (h.length_lt hP))
  | succ n ih =>
    refine ((h.next hP hT).weakenFault fun p' hp' ↦ ⟨L, hp'⟩).bind fun J? p' hp' ↦ ?_
    cases J? with
    | none => exact ensures_pure.2 ⟨(List.append_nil L).symm ▸ hp'.2, hp'.1⟩
    | some J =>
      have hlen : S.budget ≤ (L ++ [J]).length + n := by
        rw [List.length_append, List.length_singleton]
        omega
      refine (ih hp' hlen).bind fun Is p'' hp'' ↦ ensures_pure.2 ?_
      rwa [List.append_assoc] at hp''

/-- **Requests until there is a result with a property.** If there is none, no model has it. -/
theorem Delivers.findWithin {good : Interpretation → Bool} (h : P.Delivers e S T L p)
    (hP : P.Serves e S) (hT : T ⊆ P.models) {n : Nat} (hn : S.budget ≤ L.length + n)
    (hL : ∀ I ∈ L, good I = false) :
    (Pipeline.findWithin S good n).Ensures e p
      (fun I? _ ↦ match I? with
        | none => ∀ I ∈ T, good I = false
        | some I => I ∈ P.results ∧ good I)
      fun _ ↦ True := by
  induction n generalizing p L with
  | zero => exact absurd hn (Nat.not_le.2 (h.length_lt hP))
  | succ n ih =>
    refine ((h.next hP hT).weakenFault fun _ _ ↦ trivial).bind fun J? p' hp' ↦ ?_
    cases J? with
    | none => exact ensures_pure.2 fun I hI ↦ hL I (hp'.2.mem_of_done hp'.1 I hI)
    | some J =>
      dsimp only
      cases hgood : good J with
      | true =>
        rw [if_pos rfl]
        exact ensures_pure.2 ⟨hp'.mem_results J (by simp), hgood⟩
      | false =>
        rw [if_neg Bool.false_ne_true]
        refine ih hp' ?_ ?_
        · rw [List.length_append, List.length_singleton]
          omega
        · simpa [or_imp, forall_and] using ⟨hL, hgood⟩

/-- A closed pipeline has no more results. -/
theorem ensures_mapM_next_done {as : List Nat} (hstage : p.stage = .done)
    {E : Pipeline → Prop} : (as.mapM fun _ ↦ Pipeline.next S).Ensures e p
      (fun rs p' ↦ rs = as.map (fun _ ↦ none) ∧ p' = p) E := by
  refine ensures_mapM (fun _ _ p' hp' ↦ ?_) rfl
  rw [hp', Pipeline.next, ensures_get_bind, hstage]
  exact ensures_pure.2 ⟨rfl, rfl⟩

/-- **Any number of requests.** The results come first, and after the first "none" there are no more
of them. -/
theorem Delivers.mapM_next (h : P.Delivers e S T L p) (hP : P.Serves e S) (hT : T ⊆ P.models)
    {as : List Nat} : (as.mapM fun _ ↦ Pipeline.next S).Ensures e p
      (fun rs p' ↦ ∃ Is n, rs = Is.map some ++ List.replicate n none ∧
        P.Delivers e S T (L ++ Is) p')
      fun _ ↦ True := by
  induction as generalizing p L with
  | nil => exact ensures_pure.2 ⟨[], 0, rfl, (List.append_nil L).symm ▸ h⟩
  | cons a as ih =>
    rw [List.mapM_cons]
    refine ((h.next hP hT).weakenFault fun _ _ ↦ trivial).bind fun J? p' hp' ↦ ?_
    cases J? with
    | none =>
      refine (ensures_mapM_next_done hp'.1).bind fun rs p'' hrs ↦ ensures_pure.2 ?_
      refine ⟨[], as.length + 1, ?_, ?_⟩
      · rw [hrs.1, List.map_const', List.replicate_succ]
        rfl
      · rw [hrs.2, List.append_nil]
        exact hp'.2
    | some J =>
      refine (ih hp').bind fun rs p'' hrs ↦ ensures_pure.2 ?_
      obtain ⟨Is, n, hIs, hp''⟩ := hrs
      refine ⟨J :: Is, n, ?_, ?_⟩
      · rw [hIs]
        rfl
      · rwa [List.append_assoc] at hp''

end Plan

/-! ### Pipelines that list their models -/

/-- The pipeline was not used yet, and its parts keep to a plan by which exactly the models `M` are
to come out. -/
structure Lists (S : Setting) (e : Engine) (M : Interpretation → Prop) (p : Pipeline) : Prop where
  stage_eq : p.stage = .idle
  candidates_eq : p.candidates = 0
  exists_plan : ∃ P : Plan, P.Serves e S ∧ P.Unopened e S p ∧ (∀ I, I ∈ P.models ↔ M I) ∧
    ∀ I, I ∈ P.results ↔ M I

namespace Lists

variable {M : Interpretation → Prop}

/-- **All results** are the models, each of them once. -/
theorem ensures_all (h : p.Lists S e M) : (Pipeline.all S).Ensures e p
    (fun Is _ ↦ Is.Nodup ∧ ∀ I, I ∈ Is ↔ M I) fun _ ↦ True := by
  obtain ⟨P, hP, hp, hmodels, hresults⟩ := h.exists_plan
  have hdelivers : P.Delivers e S P.models [] p := hp.delivers h.stage_eq h.candidates_eq
  refine (hdelivers.collect hP subset_rfl (Nat.le_add_left _ _)).mono ?_ fun _ _ ↦ trivial
  intro Is p' h'
  obtain ⟨hIs, hdone⟩ := h'
  refine ⟨hIs.nodup, fun I ↦ ⟨fun hI ↦ (hresults I).1 (hIs.mem_results I hI), fun hI ↦ ?_⟩⟩
  exact hIs.mem_of_done hdone I ((hmodels I).2 hI)

/-- **The first result** is a model, and there is one if there is a model. -/
theorem ensures_next (h : p.Lists S e M) : (Pipeline.next S).Ensures e p
    (fun I? _ ↦ (I?.isSome ↔ ∃ I, M I) ∧ ∀ I ∈ I?, M I) fun _ ↦ True := by
  obtain ⟨P, hP, hp, hmodels, hresults⟩ := h.exists_plan
  have hdelivers : P.Delivers e S P.models [] p := hp.delivers h.stage_eq h.candidates_eq
  refine (hdelivers.next hP subset_rfl).mono ?_ fun _ _ ↦ trivial
  intro I? p' h'
  cases I? with
  | none =>
    refine ⟨iff_of_false Bool.false_ne_true fun hM ↦ ?_, by simp⟩
    obtain ⟨I, hI⟩ := hM
    exact List.not_mem_nil (h'.2.mem_of_done h'.1 I ((hmodels I).2 hI))
  | some I =>
    have hI : M I := (hresults I).1 (h'.mem_results I (by simp))
    exact ⟨iff_of_true rfl ⟨I, hI⟩, by simpa using hI⟩

/-- **The first result with a property** is a model with it, and there is one if there is such a
model. -/
theorem ensures_find (h : p.Lists S e M) (good : Interpretation → Bool) :
    (Pipeline.find S good).Ensures e p
      (fun I? _ ↦ (I?.isSome ↔ ∃ I, M I ∧ good I) ∧ ∀ I ∈ I?, M I ∧ good I) fun _ ↦ True := by
  obtain ⟨P, hP, hp, hmodels, hresults⟩ := h.exists_plan
  have hdelivers : P.Delivers e S P.models [] p := hp.delivers h.stage_eq h.candidates_eq
  refine (hdelivers.findWithin hP subset_rfl (Nat.le_add_left _ _) (by simp)).weaken ?_
  intro I? _ h'
  cases I? with
  | none =>
    refine ⟨iff_of_false Bool.false_ne_true fun hM ↦ ?_, by simp⟩
    obtain ⟨I, hI, hgood⟩ := hM
    exact Bool.noConfusion (hgood.symm.trans (h' I ((hmodels I).2 hI)))
  | some I =>
    have hI : M I ∧ good I := ⟨(hresults I).1 h'.1, h'.2⟩
    exact ⟨iff_of_true rfl ⟨I, hI⟩, by simpa using hI⟩

end Lists

end Pipeline

end Dialectical
