import Dialectical.Proofs.Attacks
import Dialectical.Proofs.Generators
import Dialectical.Verifier.Preferred

/-!
# Verifying preference by search

Whether an admissible interpretation is preferred is decided by a search for a larger one. The
session of the search offers the larger conflict-free interpretations, and each model is either
admissible or excluded; so the search ends, and when the offer is empty nothing admissible is larger
(`PreferredVerifier.ensures_findLarger`).

What the verifier excludes after a rejection is everything below the candidate. It does so only if
it found something larger, hence no preferred interpretation is excluded
(`PreferredVerifier.ensures_prune`).
-/

namespace Dialectical

open Act

variable {e : Engine} {S : Setting} {I : Interpretation} {R : Set Interpretation}

/-- The outcome of a search for something admissible. -/
def Framework.Searched (F : Framework) (R : Set Interpretation) : Option Interpretation → Prop
  | none => ∀ J ∈ R, ¬F.Admissible J
  | some J => J ∈ R ∧ F.Admissible J

/-- Excluding what is not admissible does not change what is found. -/
theorem Framework.Searched.of_exclude {F : Framework} {J : Interpretation}
    {K? : Option Interpretation} (h : F.Searched (R ∩ {K | K ≠ J}) K?) (hJ : ¬F.Admissible J) :
    F.Searched R K? := by
  cases K? with
  | none => exact fun K hK hadm ↦ h K ⟨hK, fun heq ↦ hJ (heq ▸ hadm)⟩ hadm
  | some K => exact ⟨h.1.1, h.2⟩

/-- An admissible interpretation is preferred if nothing larger was found. -/
theorem Framework.Searched.isNone_iff {F : Framework} {K? : Option Interpretation}
    (h : F.Searched {J | I < J} K?) (hI : F.Admissible I) : K?.isNone ↔ F.Preferred I := by
  rw [preferred_iff, and_iff_right hI]
  cases K? with
  | none => exact iff_of_true rfl fun J hJ hlt ↦ h J hlt hJ
  | some K => exact iff_of_false Bool.false_ne_true fun hnot ↦ hnot K h.2 h.1

namespace PreferredVerifier

variable {s : Session} {v : AdmissibleVerifier} {w : PreferredVerifier} {n : Nat}

/-- **The search** among what a session offers. -/
theorem ensures_firstAdmissible (hS : S.Fits) (he : e.Sound) (hv : v.closed = false)
    (hs : s.Offers S.atoms R) (hn : R.ncard < n) :
    (firstAdmissible S n).Ensures e (s, v)
      (fun K? q ↦ S.framework.Searched R K? ∧ q.2 = v) fun q ↦ q.2 = v := by
  induction n generalizing s R with
  | zero => exact absurd hn (Nat.not_lt_zero _)
  | succ n ih =>
    rw [firstAdmissible]
    refine hs.witness_bind he (fun _ ↦ rfl) (fun hnone s' _ ↦ ?_) fun xs hxs s' hs' ↦ ?_
    · exact ensures_pure.2 ⟨fun J hJ ↦ absurd (hnone ▸ hJ) (Set.notMem_empty J), rfl⟩
    · have hJ : (S.atoms.interpretation xs).size = S.atoms.size := S.atoms.size_interpretation xs
      dsimp only
      generalize S.atoms.interpretation xs = J at hxs hJ ⊢
      refine AdmissibleVerifier.ensures_verify_bind hS he hv (hJ.trans hS.size_eq) rfl fun b hb ↦ ?_
      cases b with
      | true => exact ensures_pure.2 ⟨⟨hxs, hb.1 rfl⟩, rfl⟩
      | false =>
        have hadm : ¬S.framework.Admissible J := fun h ↦ Bool.noConfusion (hb.2 h)
        have hcard := hs'.ncard_inter_lt hxs (B := {K | K ≠ J}) fun hne ↦ hne rfl
        rw [if_neg Bool.false_ne_true]
        refine (hs'.add (Atoms.selects_differs hJ)).first_bind fun _ s'' hs'' ↦ ?_
        exact (ih hs'' (by omega)).weaken fun K? q h ↦ ⟨h.1.of_exclude hadm, h.2⟩

/-- Something admissible that is strictly larger is found if there is one. -/
theorem ensures_findLarger (hS : S.Fits) (he : e.Sound) (hv : v.closed = false)
    (hI : I.size = S.atoms.size) : (findLarger S I).Ensures e v
      (fun K? v' ↦ S.framework.Searched {J | I < J} K? ∧ v' = v) fun v' ↦ v' = v := by
  refine ensures_bracketBeside Session.isQuiet_release Session.ensures_acquire fun s hs ↦ ?_
  refine Ensures.first_bind (Q := fun _ s' ↦
    s'.Offers S.atoms {J | S.framework.ConflictFree J ∧ I < J}) ?_ fun _ s' hs' ↦ ?_
  · refine (hs.perform hS.imposes_conflictFree).bind ?_
    rintro - s₁ ⟨-, hs₁⟩
    have hselects := Atoms.selects_extending hI
    refine (hs₁.perform hselects.imposes).weaken ?_
    rintro - s₂ ⟨-, hs₂⟩
    refine Session.Means.offers hS (hs₂.congr fun u ↦ ?_)
    rw [true_and, Setting.showsIn_inter hselects, Set.univ_inter]
    rfl
  · have hbudget := Setting.ncard_lt_budget hs'.size_eq
    refine (ensures_firstAdmissible hS he hv hs' hbudget).weaken fun K? q h ↦ ⟨?_, h.2⟩
    cases K? with
    | none => exact fun J hJ hadm ↦ h.1 J ⟨hadm.conflictFree, hJ⟩ hadm
    | some K => exact ⟨h.1.1.2, h.1.2⟩

/-- The verifier can be used. -/
def IsReady (w : PreferredVerifier) : Prop := w.admissible.closed = false

/-- What the verifier keeps after a verification: a larger admissible interpretation, if it found
one. -/
def Remembers (F : Framework) (I : Interpretation) (w : PreferredVerifier) : Prop :=
  ∀ K ∈ w.larger, I < K ∧ F.Admissible K

/-- Preparing opens nothing. -/
theorem ensures_prepare {E : PreferredVerifier → Prop} (hw : w.IsReady) :
    prepare.Ensures e w (fun _ w' ↦ w'.IsReady) E :=
  ensures_on.2 ((AdmissibleVerifier.ensures_prepare hw).weaken fun _ _ h ↦ h ▸ hw)

/-- **The verifier accepts exactly the preferred interpretations**, and what it remembers tells why
it did not accept: it has found something larger exactly if the interpretation is admissible and not
preferred. -/
theorem ensures_verify_larger (hS : S.Fits) (he : e.Sound) (hw : w.IsReady)
    (hI : I.size = S.atoms.size) : (verify S I).Ensures e w
      (fun b w' ↦ (b ↔ S.framework.Preferred I) ∧ w'.IsReady ∧ w'.Remembers S.framework I ∧
        (w'.larger.isSome ↔ S.framework.Admissible I ∧ ¬S.framework.Preferred I))
      fun w' ↦ w'.IsReady := by
  have hIF : I.size = S.framework.size := hI.trans hS.size_eq
  rw [verify, ensures_modify_bind]
  have hverify : (onAdmissible (AdmissibleVerifier.verify S I)).Ensures e { w with larger := none }
      (fun b w' ↦ (b ↔ S.framework.Admissible I) ∧ w' = { w with larger := none })
      fun w' ↦ w'.IsReady :=
    ensures_on.2 ((AdmissibleVerifier.ensures_verify hS he hw hIF).mono
      (fun b v h ↦ ⟨h.1, by rw [h.2]⟩) fun v h ↦ (congrArg AdmissibleVerifier.closed h).trans hw)
  refine hverify.bind ?_
  rintro b _ ⟨hb, rfl⟩
  cases b with
  | false =>
    have hadm : ¬S.framework.Admissible I := fun h ↦ Bool.noConfusion (hb.2 h)
    refine ensures_pure.2 ⟨iff_of_false Bool.false_ne_true fun h ↦ hadm h.prop, hw,
      by simp [Remembers], iff_of_false Bool.false_ne_true fun h ↦ hadm h.1⟩
  | true =>
    have hadm := hb.1 rfl
    have hsearch : (onAdmissible (findLarger S I)).Ensures e { w with larger := none }
        (fun K? w' ↦ S.framework.Searched {J | I < J} K? ∧ w'.IsReady) fun w' ↦ w'.IsReady :=
      ensures_on.2 ((ensures_findLarger hS he hw hI).mono
        (fun K? v h ↦ ⟨h.1, (congrArg AdmissibleVerifier.closed h.2).trans hw⟩)
        fun v h ↦ (congrArg AdmissibleVerifier.closed h).trans hw)
    refine hsearch.bind ?_
    rintro K? w' ⟨hK, hw'⟩
    have hnone := hK.isNone_iff hadm
    rw [ensures_modify_bind]
    refine ensures_pure.2 ⟨hnone, hw', fun K hlarger ↦ ?_, ?_⟩
    · obtain rfl : K? = some K := hlarger
      exact hK
    · rw [and_iff_right hadm, ← hnone]
      cases K? <;> simp

/-- What a pipeline needs of a verification. -/
theorem ensures_verify (hS : S.Fits) (he : e.Sound) (hw : w.IsReady)
    (hI : I.size = S.atoms.size) : (verify S I).Ensures e w
      (fun b w' ↦ (b ↔ S.framework.Preferred I) ∧ w'.IsReady ∧ w'.Remembers S.framework I)
      fun w' ↦ w'.IsReady :=
  (ensures_verify_larger hS he hw hI).weaken fun _ _ h ↦ ⟨h.1, h.2.1, h.2.2.1⟩

/-- **What the verifier excludes** after a rejection is not preferred. -/
theorem ensures_prune {E : PreferredVerifier → Prop} (hw : w.IsReady)
    (hI : I.size = S.atoms.size) (hr : w.Remembers S.framework I) :
    (prune S I).Ensures e w (fun cs w' ↦ w'.IsReady ∧ ∃ B, S.atoms.Selects cs B ∧
      ∀ J, S.framework.Preferred J → J ∈ B) E := by
  rw [prune, ensures_get_bind]
  cases hlarger : w.larger with
  | none => exact ensures_pure.2 ⟨hw, _, Atoms.selects_nil S.atoms, fun _ _ ↦ trivial⟩
  | some K =>
    obtain ⟨hlt, hK⟩ := hr K hlarger
    rw [if_pos Option.isSome_some, ensures_modify_bind]
    refine ensures_pure.2 ⟨hw, _, Atoms.selects_exceeds hI, fun J hJ hle ↦ ?_⟩
    exact (hle.trans_lt hlt).not_ge (hJ.le_of_ge hK (hle.trans hlt.le))

end PreferredVerifier

end Dialectical
