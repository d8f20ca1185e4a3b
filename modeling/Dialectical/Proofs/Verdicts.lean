import Dialectical.Proofs.Completeness
import Dialectical.Proofs.Histories
import Dialectical.Proofs.Naivety

/-!
# Verdicts that do not depend on the past

A verifier of admissibility opens a session for each verification. The verifiers of naivety and of
completeness open one session, on their first use, and ask it about one interpretation after the
other. Their verdicts are about the interpretation and the framework all the same:

* a verifier of admissibility asks whether some completion speaks against a decided argument
  (`AdmissibleVerifier.accepts_iff_completions`);
* a verifier of naivety leaves clauses behind, but each of them is satisfied when its guard is false
  and no guard is used twice; so it rejects what something conflict-free is larger than
  (`NaiveVerifier.rejects_iff_enlargeable`);
* a verifier of completeness leaves nothing behind, also when a verification ends early or with a
  fault; so it accepts the fixpoints of the characteristic operator
  (`CompleteVerifier.accepts_iff_fixpoint`).

What a verification needs of the session is kept by every call, also by one that is about something
that is no interpretation of the framework (`maintains_verify`). As far as the session is opened on
the first use, this is a matter of its lifecycle (`Lifecycle.maintains_use`).
-/

namespace Dialectical

open Act Clause

variable {τ α : Type} {e : Engine} {S : Setting} {I : Interpretation}

/-! ### Components that open on first use -/

/-- **What each use keeps is kept from the first use on.** -/
theorem Lifecycle.maintains_use {start : Act Unit τ} {fault : Fault} {Φ : τ → Prop} {x : Act τ α}
    (hx : x.Maintains e Φ) : (Lifecycle.use start fault x).Maintains e (Keeps e start Φ) := by
  intro p j hp
  cases p with
  | closed => exact hp.elim
  | opened t => exact hx t j hp
  | unopened =>
    obtain ⟨t, u, i, hstart, ht⟩ := Ensures.exists_run hp j
    have hlift : (lift start).run e (unopened : Lifecycle τ) j = ⟨.ok t, unopened, i⟩ := by
      show (start.run e () j).mapState (fun _ ↦ unopened) = _
      rw [hstart]
      rfl
    show ((lift start >>= fun t ↦ into opened t x).run e unopened j).state.Keeps e start Φ
    rw [run_bind, hlift]
    exact hx t i ht

/-! ### Admissibility -/

namespace AdmissibleVerifier

/-- **Verification of admissibility.** Whatever a verifier was used for before, as long as it is
open: it accepts an interpretation, conflict-free or not, if and only if every completion gives the
conditions of the satisfied arguments the value true and those of the unsatisfied arguments the
value false. Nothing of the verification stays in the verifier. -/
theorem accepts_iff_completions (F : Framework) (e : Engine) (he : e.Correct)
    (w : AdmissibleVerifier) (hw : w.closed = false) (I : Interpretation) (hI : I.size = F.size)
    (j : Journal) :
    ∃ b i, (verify (.of F) I).run e w j = ⟨.ok b, w, i⟩ ∧
      (b ↔ ∀ v, I.CompletedBy v → ∀ a c, I.Decides a c → (F.condition a).eval v = c) := by
  obtain ⟨b, w', i, hrun, hb, rfl⟩ :=
    (ensures_verify (Setting.fits_of F) he.sound hw hI).exists_ok he.decisive j
  refine ⟨b, i, hrun, hb.trans ⟨fun h v hv a c hc ↦ h.forces a c hc v hv, fun h ↦ ?_⟩⟩
  exact ⟨hI, fun a c hc v hv ↦ h v hv a c hc⟩

/-- The case of two arguments that exclude each other. To satisfy one of them and to leave the other
one undecided is conflict-free, but a completion that accepts the other one speaks against it. -/
theorem accepts_iff_completions_mutualExclusion :
    Engine.exhaustive.Correct ∧ ({} : AdmissibleVerifier).closed = false ∧
    (⟨[.satisfied, .undecided]⟩ : Interpretation).size = Framework.mutualExclusion.size ∧
    ∃ i, (verify (.of .mutualExclusion) ⟨[.satisfied, .undecided]⟩).run .exhaustive {} .empty =
      ⟨.ok false, {}, i⟩ := by
  have he := Engine.exhaustive_correct
  have hsize : (⟨[.satisfied, .undecided]⟩ : Interpretation).size =
      Framework.mutualExclusion.size := rfl
  obtain ⟨b, i, hrun, hb⟩ :=
    accepts_iff_completions .mutualExclusion .exhaustive he {} rfl _ hsize .empty
  -- among the completions is the one that accepts both arguments
  have hall := Interpretation.completedBy_withDefault ⟨[.satisfied, .undecided]⟩ fun _ ↦ true
  have hfalse : b = false := Bool.eq_false_iff.2 fun h ↦
    absurd (hb.1 h _ hall 0 true rfl) (by decide)
  exact ⟨he, rfl, hsize, i, hfalse ▸ hrun⟩

end AdmissibleVerifier

/-! ### Naivety -/

namespace NaiveVerifier

open Verifier (Call)

/-- What is remembered or forgotten does not matter. -/
theorem maintains_remember (failed : Bool) :
    (modify fun w : NaiveVerifier ↦ { w with failed }).Maintains e (IsReady S e) :=
  maintains_modify fun _ hw ↦ hw

/-- **A verifier stays ready**, whatever it is called for and however the call ends. -/
theorem maintains_verify (hS : S.Fits) (he : e.Sound) (I : Interpretation) :
    (verify S I).Maintains e (IsReady S e) := by
  have hmaximal : (use S (isMaximal S I)).Maintains e (IsReady S e) :=
    Ensures.maintains fun _ hw ↦
      (hw.use fun _ hs ↦ ensures_isMaximal hS he hs).weaken fun _ _ h ↦ h.2
  exact hmaximal.bind fun b ↦ (maintains_remember !b).bind fun _ ↦ maintains_pure

/-- Pruning keeps the verifier ready. -/
theorem maintains_prune (I : Interpretation) : (prune S I).Maintains e (IsReady S e) := by
  refine maintains_get.bind fun w ↦ ?_
  split
  · exact (maintains_remember false).bind fun _ ↦ maintains_pure
  · exact maintains_pure

/-- **Pruning** asks the candidates of a session, if the last verification failed, not to be below
the interpretation. -/
theorem ensures_pruneBy {E : Session × NaiveVerifier → Prop} {s : Session} {w : NaiveVerifier}
    (hw : w.IsReady S e) (hI : I.size = S.atoms.size) :
    (Session.pruneBy (prune S I)).Ensures e (s, w) (fun _ p ↦ ∀ v J, S.atoms.Encodes v J →
      (AllHold p.1.solver.clauses v ↔
        AllHold s.solver.clauses v ∧ (w.failed = true → ¬J ≤ I))) E := by
  have hprune : (prune S I).Ensures e w (fun cs _ ↦ ∃ B, S.atoms.Selects cs B ∧
      B = {J | w.failed = true → ¬J ≤ I}) fun w' ↦ E (s, w') :=
    (ensures_prune_selects hw hI).weaken fun _ _ h ↦ ⟨_, h.2, rfl⟩
  refine (Session.ensures_pruneBy hprune).weaken ?_
  rintro - p ⟨B, rfl, hp⟩ v J hv
  exact (hp v J hv).trans and_comm

/-- **Verification of naivety after any history.** However a verifier was used before: it rejects an
interpretation if and only if something conflict-free is strictly larger; so of the conflict-free
interpretations it accepts the naive ones; and pruning takes, after a rejection, those solutions out
of a session that stand for something below the interpretation, and none that stands for something
naive. -/
theorem rejects_iff_enlargeable (F : Framework) (e : Engine) (he : e.Correct)
    (history : List Call) (I : Interpretation) (hI : I.size = F.size) (j : Journal) :
    ∃ rs w i b w' i',
      (history.mapM fun c ↦ (Call.carryOutBy (verify (.of F)) (prune (.of F)) c).attempt).run e {}
        j = ⟨.ok rs, w, i⟩ ∧
      (verify (.of F) I).run e w i = ⟨.ok b, w', i'⟩ ∧
      (b = false ↔ ∃ J, F.ConflictFree J ∧ I < J) ∧
      (F.ConflictFree I → (b = true ↔ F.Naive I)) ∧
      ∀ (s : Session) (l : Journal), ∃ p l',
        (Session.pruneBy (prune (.of F) I)).run e (s, w') l = ⟨.ok (), p, l'⟩ ∧
        ∀ v J, (Atoms.of F).Encodes v J →
          (AllHold p.1.solver.clauses v ↔
            AllHold s.solver.clauses v ∧ (b = false → ¬J ≤ I)) ∧
          (F.Naive J → AllHold s.solver.clauses v → AllHold p.1.solver.clauses v) := by
  have hS := Setting.fits_of F
  obtain ⟨rs, w, i, hhistory, hw⟩ :=
    Maintains.mapM_attempt (Call.maintains_carryOutBy (maintains_verify hS he.sound)
      maintains_prune) (isReady_new hS e) history j
  obtain ⟨b, w', i', hrun, hb, hw', hr, hfailed⟩ :=
    (ensures_verify_failed hS he.sound hw hI).exists_ok he.decisive i
  refine ⟨rs, w, i, b, w', i', hhistory, hrun, ?_, fun hcf ↦ ?_, fun s l ↦ ?_⟩
  · rw [← Bool.not_eq_true, hb]
    push Not
    exact exists_congr fun J ↦ and_comm
  · exact hb.trans (Framework.naive_iff.trans (and_iff_right hcf)).symm
  · obtain ⟨⟨⟩, p, l', hprune, hp⟩ := (ensures_pruneBy (s := s) hw' hI).exists_run l
    refine ⟨p, l', hprune, fun v J hv ↦ ⟨?_, fun hJ hs ↦ ?_⟩⟩
    · simpa [hfailed] using hp v J hv
    · exact (hp v J hv).2 ⟨hs, hr.not_le hJ⟩

/-- The case of two arguments that exclude each other. The verifier accepted something, was used to
prune, and was used for something that is no interpretation of them; now it finds that it is
conflict-free to decide more than nothing. -/
theorem rejects_iff_enlargeable_mutualExclusion :
    Engine.exhaustive.Correct ∧
    (Interpretation.blank 2).size = Framework.mutualExclusion.size ∧
    ∃ rs w i w' i',
      ([.verify ⟨[.satisfied, .unsatisfied]⟩, .prune ⟨[.satisfied, .unsatisfied]⟩,
        .verify ⟨[.undecided, .satisfied, .undecided]⟩].mapM fun c ↦
        (Call.carryOutBy (verify (.of .mutualExclusion)) (prune (.of .mutualExclusion))
          c).attempt).run .exhaustive {} .empty = ⟨.ok rs, w, i⟩ ∧
      (verify (.of .mutualExclusion) (.blank 2)).run .exhaustive w i = ⟨.ok false, w', i'⟩ := by
  have he := Engine.exhaustive_correct
  have hsize : (Interpretation.blank 2).size = Framework.mutualExclusion.size := rfl
  have hlt : Interpretation.blank 2 < ⟨[.satisfied, .unsatisfied]⟩ :=
    Interpretation.lt_iff_le_and_decides.2
      ⟨Interpretation.blank_le rfl, 0, true, by decide, by decide⟩
  obtain ⟨rs, w, i, b, w', i', hhistory, hrun, hb, -⟩ :=
    rejects_iff_enlargeable .mutualExclusion .exhaustive he
      [.verify ⟨[.satisfied, .unsatisfied]⟩, .prune ⟨[.satisfied, .unsatisfied]⟩,
        .verify ⟨[.undecided, .satisfied, .undecided]⟩] _ hsize .empty
  have hfalse : b = false := hb.2 ⟨_, Framework.admissible_mutualExclusion.conflictFree, hlt⟩
  exact ⟨he, hsize, rs, w, i, w', i', hhistory, hfalse ▸ hrun⟩

end NaiveVerifier

/-! ### Completeness -/

namespace CompleteVerifier

/-- Questions change neither names nor clauses, and use up what was assumed. -/
theorem maintains_satisfiableWith (he : e.Sound) (ls : List Literal) :
    (NamedSession.satisfiableWith ls).Maintains e S.OnlyNames :=
  Ensures.maintains fun _ hs ↦ (NamedSession.ensures_satisfiableWith he hs.means.pending).mono
    (fun _ _ h ↦ hs.asked h.2.1 h.2.2) fun _ h ↦ hs.asked h.1 h.2

/-- Judging one argument names variables, and imposes nothing. -/
theorem maintains_verifyAt (he : e.Sound) (a : Nat) (status : Status) :
    (verifyAt S I a status).Maintains e S.OnlyNames := by
  refine maintains_ofExcept.bind fun fixed ↦ ?_
  refine (maintains_get.bind fun _ ↦ maintains_ofExcept).bind fun name ↦ ?_
  cases status with
  | satisfied => exact (maintains_satisfiableWith he _).bind fun _ ↦ maintains_pure
  | unsatisfied => exact (maintains_satisfiableWith he _).bind fun _ ↦ maintains_pure
  | undecided =>
    refine (maintains_satisfiableWith he _).bind fun b ↦ ?_
    cases b with
    | true => exact maintains_satisfiableWith he _
    | false => exact maintains_pure

/-- It does not matter at which argument a verification ends. -/
theorem maintains_verifyFrom (he : e.Sound) (ps : List (Nat × Status)) :
    (verifyFrom S I ps).Maintains e S.OnlyNames := by
  induction ps with
  | nil => exact maintains_pure
  | cons p ps ih =>
    refine (maintains_verifyAt he p.1 p.2).bind fun b ↦ ?_
    cases b with
    | true => exact ih
    | false => exact maintains_pure

/-- **A verifier stays ready**, whatever it is called for and however the call ends. -/
theorem maintains_verify (he : e.Sound) (I : Interpretation) :
    (verify S I).Maintains e (IsReady S e) :=
  (Lifecycle.maintains_use (maintains_verifyFrom he I.entries)).on (fun _ hw ↦ hw) fun _ _ _ h ↦ h

/-- Nothing is assumed for the next question to an open session. -/
theorem IsReady.pending_eq_nil {w : CompleteVerifier} {s : NamedSession} (hw : w.IsReady S e)
    (hs : w.phase = .opened s) : s.session.pending = [] := by
  rw [IsReady, hs] at hw
  exact hw.means.pending

/-- **Verification of completeness after any history.** However a verifier was used before, at
whatever argument the verifications ended, and if they did with a fault: it accepts an
interpretation if and only if this is its own image by the characteristic operator. What was assumed
for a question is used up, after the history as well as after the verification. -/
theorem accepts_iff_fixpoint (F : Framework) (e : Engine) (he : e.Correct)
    (history : List Interpretation) (I : Interpretation) (hI : I.size = F.size) (j : Journal) :
    ∃ rs w i b w' i' s,
      (history.mapM fun K ↦ (verify (.of F) K).attempt).run e {} j = ⟨.ok rs, w, i⟩ ∧
      (∀ t, w.phase = .opened t → t.session.pending = []) ∧
      (verify (.of F) I).run e w i = ⟨.ok b, w', i'⟩ ∧
      (b = true ↔ F.characteristic I = I) ∧
      w'.phase = .opened s ∧ s.session.pending = [] := by
  have hS := Setting.fits_of F
  obtain ⟨rs, w, i, hhistory, hw⟩ :=
    Maintains.mapM_attempt (fun K ↦ maintains_verify he.sound K) (isReady_new hS e) history j
  obtain ⟨b, w', i', hrun, hb, s, hphase, hs⟩ :=
    (ensures_verify_opened hS he.sound hw hI).exists_ok he.decisive i
  exact ⟨rs, w, i, b, w', i', s, hhistory, fun _ ↦ hw.pending_eq_nil, hrun,
    hb.trans Framework.complete_iff, hphase, hs.means.pending⟩

/-- The case of two arguments that exclude each other. One verification ended at the first argument,
and one with a fault, as it was about something that is no interpretation of them; now to leave
both arguments undecided is accepted. -/
theorem accepts_iff_fixpoint_mutualExclusion :
    Engine.exhaustive.Correct ∧
    (Interpretation.blank 2).size = Framework.mutualExclusion.size ∧
    ∃ rs w i w' i' s,
      ([⟨[.satisfied, .undecided]⟩, ⟨[.satisfied]⟩].mapM fun K ↦
        (verify (.of .mutualExclusion) K).attempt).run .exhaustive {} .empty = ⟨.ok rs, w, i⟩ ∧
      (verify (.of .mutualExclusion) (.blank 2)).run .exhaustive w i = ⟨.ok true, w', i'⟩ ∧
      w'.phase = .opened s ∧ s.session.pending = [] := by
  have he := Engine.exhaustive_correct
  have hsize : (Interpretation.blank 2).size = Framework.mutualExclusion.size := rfl
  obtain ⟨rs, w, i, b, w', i', s, hhistory, -, hrun, hb, hphase, hpending⟩ :=
    accepts_iff_fixpoint .mutualExclusion .exhaustive he
      [⟨[.satisfied, .undecided]⟩, ⟨[.satisfied]⟩] _ hsize .empty
  have htrue : b = true := hb.2 Framework.isGround_mutualExclusion.1
  exact ⟨he, hsize, rs, w, i, w', i', s, hhistory, htrue ▸ hrun, hphase, hpending⟩

end CompleteVerifier

end Dialectical
