import Dialectical.Proofs.Completeness
import Dialectical.Proofs.Maximization
import Dialectical.Proofs.Naivety
import Dialectical.Proofs.Preference
import Dialectical.Proofs.Pruners
import Dialectical.Proofs.Stability

/-!
# Plans for pipelines

What a verifier is to accept is said once for all of them (`Framework.Fulfils`), and each of them
does so (`Verifier.verifies`). Two kinds of plans serve the pipelines of which all models are
wanted.

* A *filter* accepts exactly its models, and nothing is done to them afterwards. A rejection may
  exclude what is not a model (`Pipeline.Plan.serves_filter`).
* A *maximization* accepts the admissible candidates and lists the preferred interpretations above
  them. A result stands for every candidate below it, so no result comes twice
  (`Pipeline.Plan.serves_maximization`).
-/

namespace Dialectical

open Act

variable {e : Engine} {S : Setting} {I J G : Interpretation} {D : Set Interpretation}
  {M : Interpretation → Prop} {goal : Goal} {given : Option Interpretation}

/-! ### Verifiers -/

/-- What the verifier of a criterion is to accept among conflict-free candidates. Without a
verifier this is everything. -/
def Framework.Fulfils (F : Framework) : Option Criterion → Interpretation → Prop
  | none, _ => True
  | some .admissible, I => F.Admissible I
  | some .complete, I => F.Complete I
  | some .naive, I => F.Naive I
  | some .preferred, I => F.Preferred I
  | some .stable, I => F.Stable I

namespace Verifier

/-- The verifier is for this criterion and can be used. -/
def IsReady (S : Setting) (e : Engine) : Option Criterion → Option Verifier → Prop
  | none, v? => v? = none
  | some .admissible, v? => ∃ w, v? = some (.admissible w) ∧ w.closed = false
  | some .complete, v? => ∃ w, v? = some (.complete w) ∧ w.IsReady S e
  | some .naive, v? => ∃ w, v? = some (.naive w) ∧ w.IsReady S e
  | some .preferred, v? => ∃ w, v? = some (.preferred w) ∧ w.IsReady
  | some .stable, v? => ∃ w, v? = some (.stable w) ∧ w.closed = false

theorem isReady_new (hS : S.Fits) (e : Engine) (c? : Option Criterion) :
    IsReady S e c? (c?.map new) := by
  cases c? with
  | none => rfl
  | some c =>
    cases c with
    | admissible => exact ⟨{}, rfl, rfl⟩
    | complete => exact ⟨{}, rfl, CompleteVerifier.isReady_new hS e⟩
    | naive => exact ⟨{}, rfl, NaiveVerifier.isReady_new hS e⟩
    | preferred => exact ⟨{}, rfl, rfl⟩
    | stable => exact ⟨{}, rfl, rfl⟩

theorem not_isReady_none {c : Criterion} : ¬IsReady S e (some c) none := by
  intro h
  cases c <;> obtain ⟨w, hw, -⟩ := h <;> exact absurd hw.symm (Option.some_ne_none _)

open Pipeline

/-- Without a verifier everything is accepted. -/
theorem verifies_absent : Verifies S e D (S.framework.Fulfils none) M (IsReady S e none) where
  prepare _ hv := absurd hv (Option.some_ne_none _)
  absent _ _ _ := trivial
  verify _ hv := absurd hv (Option.some_ne_none _)

/-- Accepting what is admissible. -/
theorem verifies_admissible (hS : S.Fits) (he : e.Sound)
    (hD : ∀ I ∈ D, S.framework.ConflictFree I) :
    Verifies S e D (S.framework.Fulfils (some .admissible)) M
      (IsReady S e (some .admissible)) where
  prepare := by
    rintro _ ⟨w, ⟨⟩, hw⟩
    rw [prepare, ensures_get_bind]
    exact ensures_into.2 ((AdmissibleVerifier.ensures_prepare hw).weaken
      fun _ w' h ↦ ⟨w', rfl, h ▸ hw⟩)
  absent h := absurd h not_isReady_none
  verify := by
    rintro _ ⟨w, ⟨⟩, hw⟩ I hI
    rw [verify, ensures_get_bind]
    have hverify := AdmissibleVerifier.ensures_verify hS he hw (hD I hI).size_eq
    refine ensures_into.2 (hverify.mono ?_ ?_)
    · rintro b _ ⟨hb, rfl⟩
      refine ⟨⟨_, rfl, hw⟩, hb, fun _ ↦ ?_⟩
      exact ensures_pure.2 ⟨⟨_, rfl, hw⟩, _, Atoms.selects_nil S.atoms, fun _ _ ↦ trivial⟩
    · rintro _ rfl
      exact ⟨_, rfl, hw⟩

/-- Accepting what is complete. -/
theorem verifies_complete (hS : S.Fits) (he : e.Sound) (hD : ∀ I ∈ D, S.framework.ConflictFree I) :
    Verifies S e D (S.framework.Fulfils (some .complete)) M (IsReady S e (some .complete)) where
  prepare := by
    rintro _ ⟨w, ⟨⟩, hw⟩
    rw [prepare, ensures_get_bind]
    exact ensures_into.2 ((CompleteVerifier.ensures_prepare hw).mono (fun _ w' h ↦ ⟨w', rfl, h⟩)
      fun w' h ↦ ⟨w', rfl, h⟩)
  absent h := absurd h not_isReady_none
  verify := by
    rintro _ ⟨w, ⟨⟩, hw⟩ I hI
    rw [verify, ensures_get_bind]
    refine ensures_into.2 ((CompleteVerifier.ensures_verify hS he hw (hD I hI).size_eq).mono ?_ ?_)
    · rintro b w' ⟨hb, hw'⟩
      refine ⟨⟨w', rfl, hw'⟩, hb, fun _ ↦ ?_⟩
      exact ensures_pure.2 ⟨⟨w', rfl, hw'⟩, _, Atoms.selects_nil S.atoms, fun _ _ ↦ trivial⟩
    · exact fun w' hw' ↦ ⟨w', rfl, hw'⟩

/-- Accepting what is naive among conflict-free candidates, and pruning what is below something
larger. -/
theorem verifies_naive (hS : S.Fits) (he : e.Sound) (hD : ∀ I ∈ D, S.framework.ConflictFree I)
    (hM : ∀ J, M J → S.framework.Naive J) :
    Verifies S e D (S.framework.Fulfils (some .naive)) M (IsReady S e (some .naive)) where
  prepare := by
    rintro _ ⟨w, ⟨⟩, hw⟩
    rw [prepare, ensures_get_bind]
    exact ensures_into.2 ((NaiveVerifier.ensures_prepare hw).mono (fun _ w' h ↦ ⟨w', rfl, h⟩)
      fun w' h ↦ ⟨w', rfl, h⟩)
  absent h := absurd h not_isReady_none
  verify := by
    rintro _ ⟨w, ⟨⟩, hw⟩ I hI
    have hsize : I.size = S.atoms.size := (hD I hI).size_eq.trans hS.size_eq.symm
    rw [verify, ensures_get_bind]
    refine ensures_into.2 ((NaiveVerifier.ensures_verify hS he hw hsize).mono ?_ ?_)
    · rintro b w' ⟨hb, hw', hr⟩
      refine ⟨⟨w', rfl, hw'⟩, ?_, fun _ ↦ ?_⟩
      · rw [hb, Framework.Fulfils, Framework.naive_iff, and_iff_right (hD I hI)]
      · rw [prune, ensures_get_bind]
        refine ensures_into.2 ((NaiveVerifier.ensures_prune hw' hsize hr).weaken fun cs w'' h ↦ ?_)
        obtain ⟨hw'', B, hcs, hB⟩ := h
        exact ⟨⟨w'', rfl, hw''⟩, B, hcs, fun J hJ ↦ hB J (hM J hJ)⟩
    · exact fun w' hw' ↦ ⟨w', rfl, hw'⟩

/-- Accepting what is preferred, and pruning what is below something larger. -/
theorem verifies_preferred (hS : S.Fits) (he : e.Sound) (hD : ∀ I ∈ D, S.framework.ConflictFree I)
    (hM : ∀ J, M J → S.framework.Preferred J) :
    Verifies S e D (S.framework.Fulfils (some .preferred)) M
      (IsReady S e (some .preferred)) where
  prepare := by
    rintro _ ⟨w, ⟨⟩, hw⟩
    rw [prepare, ensures_get_bind]
    exact ensures_into.2 ((PreferredVerifier.ensures_prepare hw).weaken fun _ w' h ↦ ⟨w', rfl, h⟩)
  absent h := absurd h not_isReady_none
  verify := by
    rintro _ ⟨w, ⟨⟩, hw⟩ I hI
    have hsize : I.size = S.atoms.size := (hD I hI).size_eq.trans hS.size_eq.symm
    rw [verify, ensures_get_bind]
    refine ensures_into.2 ((PreferredVerifier.ensures_verify hS he hw hsize).mono ?_ ?_)
    · rintro b w' ⟨hb, hw', hr⟩
      refine ⟨⟨w', rfl, hw'⟩, hb, fun _ ↦ ?_⟩
      rw [prune, ensures_get_bind]
      refine ensures_into.2 ((PreferredVerifier.ensures_prune hw' hsize hr).weaken
        fun cs w'' h ↦ ?_)
      obtain ⟨hw'', B, hcs, hB⟩ := h
      exact ⟨⟨w'', rfl, hw''⟩, B, hcs, fun J hJ ↦ hB J (hM J hJ)⟩
    · exact fun w' hw' ↦ ⟨w', rfl, hw'⟩

/-- Accepting what is stable. -/
theorem verifies_stable (hS : S.Fits) (he : e.Sound) (hD : ∀ I ∈ D, S.framework.ConflictFree I) :
    Verifies S e D (S.framework.Fulfils (some .stable)) M (IsReady S e (some .stable)) where
  prepare := by
    rintro _ ⟨w, ⟨⟩, hw⟩
    rw [prepare, ensures_get_bind]
    exact ensures_into.2 ((StableVerifier.ensures_prepare hw).weaken
      fun _ w' h ↦ ⟨w', rfl, h ▸ hw⟩)
  absent h := absurd h not_isReady_none
  verify := by
    rintro _ ⟨w, ⟨⟩, hw⟩ I hI
    rw [verify, ensures_get_bind]
    refine ensures_into.2 ((StableVerifier.ensures_verify hS he hw (hD I hI).size_eq).mono ?_ ?_)
    · rintro b _ ⟨hb, rfl⟩
      refine ⟨⟨_, rfl, hw⟩, ?_, fun _ ↦ ?_⟩
      · rw [hb, Framework.Fulfils, Framework.stable_iff, Framework.twoValuedModel_iff,
          and_iff_right (hD I hI)]
      · exact ensures_pure.2 ⟨⟨_, rfl, hw⟩, _, Atoms.selects_nil S.atoms, fun _ _ ↦ trivial⟩
    · rintro _ rfl
      exact ⟨_, rfl, hw⟩

/-- **Every verifier** accepts what fulfils its criterion, and what it prunes does not. -/
theorem verifies (hS : S.Fits) (he : e.Sound) (c? : Option Criterion)
    (hD : ∀ I ∈ D, S.framework.ConflictFree I) (hM : ∀ J, M J → S.framework.Fulfils c? J) :
    Verifies S e D (S.framework.Fulfils c?) M (IsReady S e c?) := by
  cases c? with
  | none => exact verifies_absent
  | some c =>
    cases c with
    | admissible => exact verifies_admissible hS he hD
    | complete => exact verifies_complete hS he hD
    | naive => exact verifies_naive hS he hD hM
    | preferred => exact verifies_preferred hS he hD hM
    | stable => exact verifies_stable hS he hD

end Verifier

namespace Pipeline.Plan

variable {s : Source} {c? : Option Criterion}

/-! ### Filters -/

/-- The plan of a pipeline that accepts exactly its models. -/
def filter (S : Setting) (e : Engine) (s : Source) (c? : Option Criterion)
    (D : Set Interpretation) : Plan where
  source := s
  verifier := Verifier.IsReady S e c?
  early := .nothing
  late := .nothing
  candidates := D
  accepted := {I | S.framework.Fulfils c? I}
  models := {I | I ∈ D ∧ S.framework.Fulfils c? I}
  results := {I | I ∈ D ∧ S.framework.Fulfils c? I}
  leads := (· = ·)

/-- **A filter** lists the candidates that fulfil its criterion. -/
theorem serves_filter (hS : S.Fits) (he : e.Sound) (hD : ∀ I ∈ D, S.framework.ConflictFree I)
    (hs : s.Gives S e D {I | I ∈ D ∧ S.framework.Fulfils c? I}) :
    (filter S e s c? D).Serves e S where
  fits := hS
  sound := he
  size_eq I hI := (hD I hI.1).size_eq.trans hS.size_eq.symm
  gives := hs
  verifies := Verifier.verifies hS he c? hD fun _ hJ ↦ hJ.2
  early := Passage.serves_nothing
  late := Passage.serves_nothing
  yields := by
    rintro R hR _ hI _ _ I _ ⟨rfl, rfl⟩ hID hacc ⟨rfl, rfl⟩ -
    refine ⟨⟨hID, hacc⟩, ⟨I, hI, rfl⟩, fun X hX ↦ hX.2, fun X hX _ ↦ ?_⟩
    by_cases hXI : X = I
    · exact .inl hXI
    · exact .inr ⟨hX, hXI⟩
  rejects := by
    rintro R - _ - I _ ⟨rfl, rfl⟩ hacc X hX hM
    exact ⟨hX, fun hXI ↦ hacc (hXI ▸ hM.2)⟩

/-! ### Maximizations -/

/-- The plan of a pipeline that maximizes admissible candidates. -/
def maximization (S : Setting) (e : Engine) (s : Source) (D : Set Interpretation) : Plan where
  source := s
  verifier := Verifier.IsReady S e (some .admissible)
  early := .nothing
  late := .maximizing S
  candidates := D
  accepted := {I | S.framework.Admissible I}
  models := {I | I ∈ D ∧ S.framework.Preferred I}
  results := {I | I ∈ D ∧ S.framework.Preferred I}
  leads := (· ≤ ·)

/-- **A maximization** lists the preferred interpretations among its candidates, if every summit
above a candidate is one. -/
theorem serves_maximization (hS : S.Fits) (he : e.Sound)
    (hD : ∀ I ∈ D, S.framework.ConflictFree I)
    (hup : ∀ I ∈ D, ∀ J, S.framework.IsSummit I J → J ∈ D)
    (hs : s.Gives S e D {I | I ∈ D ∧ S.framework.Preferred I}) :
    (maximization S e s D).Serves e S where
  fits := hS
  sound := he
  size_eq I hI := (hD I hI.1).size_eq.trans hS.size_eq.symm
  gives := hs
  verifies := Verifier.verifies_admissible hS he hD
  early := Passage.serves_nothing
  late := Passage.serves_maximizing hS he
    (fun I hI ↦ (hD I hI).size_eq.trans hS.size_eq.symm) hup
  yields := by
    rintro R hR _ hI I _ K _ ⟨rfl, rfl⟩ hID hacc ⟨hK, rfl⟩ hKD
    have hpreferred := hK.preferred hacc
    refine ⟨⟨hKD, hpreferred⟩, ⟨I, hI, hK.le⟩, fun X hX ↦ hX.2, fun X hX hM ↦ ?_⟩
    -- a model below the result is the result, as it is maximal
    by_cases hXK : X ≤ K
    · exact .inl (hM.2.eq_of_le hpreferred.prop hXK)
    · exact .inr ⟨⟨hX, fun hXI ↦ hXK (hXI ▸ hK.le)⟩, hXK⟩
  rejects := by
    rintro R - _ - I _ ⟨rfl, rfl⟩ hacc X hX hM
    exact ⟨hX, fun hXI ↦ hacc (hXI ▸ hM.2.prop)⟩

end Pipeline.Plan

end Dialectical
