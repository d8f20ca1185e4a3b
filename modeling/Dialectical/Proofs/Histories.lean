import Dialectical.Proofs.Attempts
import Dialectical.Proofs.Maximization
import Dialectical.Proofs.Preference

/-!
# Components with a history

A maximizer keeps the types of the links, and a verifier of preference keeps the larger
interpretation that it found last. So a call meets what earlier calls left behind: calls for
anything at all, also for something that is no interpretation of the framework, and also such as
ended with a fault.

What a component needs in order to be used is kept by each of its calls, however it ends
(`Act.Maintains`), and hence by any number of calls (`Act.Maintains.mapM_attempt`). This is all that
later calls rest on:

* a maximizer ends at a preferred interpretation strictly above the given one, or where it started
  (`Maximizer.process_after_history`);
* a verifier of preference accepts the preferred interpretations, tells why it rejects one, and
  excludes none of them (`PreferredVerifier.verify_after_history`).

The larger interpretation is not among what has to be kept: a verification begins by forgetting it.
-/

namespace Dialectical

open Act Clause

variable {σ τ α β : Type} {e : Engine} {S : Setting} {I : Interpretation}

/-! ### What every run keeps -/

namespace Act

/-- If the state is as `Φ` says it is so afterwards, however the action ends. -/
def Maintains (e : Engine) (x : Act σ α) (Φ : σ → Prop) : Prop :=
  ∀ s j, Φ s → Φ (x.run e s j).state

section

variable {Φ : σ → Prop} {s : σ}

/-- An action that keeps something, whether it ends well or because the solver gave up, has no other
ends. -/
theorem Ensures.maintains {x : Act σ α} (h : ∀ s, Φ s → x.Ensures e s (fun _ ↦ Φ) Φ) :
    x.Maintains e Φ := by
  intro s j hs
  have hj := h s hs j
  rcases hrun : x.run e s j with ⟨fault | a, s', j'⟩ <;> rw [hrun] at hj
  · exact hj.2.2.1
  · exact hj.1

/-- Actions that leave the state alone keep everything. -/
theorem maintains_pure {a : α} : (pure a : Act σ α).Maintains e Φ := fun _ _ hs ↦ hs

theorem maintains_throw {fault : Fault} : (throw fault : Act σ α).Maintains e Φ := fun _ _ hs ↦ hs

theorem maintains_ofExcept {x : Except Fault α} : (ofExcept x : Act σ α).Maintains e Φ :=
  fun _ _ hs ↦ hs

theorem maintains_get : (get : Act σ σ).Maintains e Φ := fun _ _ hs ↦ hs

theorem maintains_log {l : Level} {c : Component} {m : String} :
    (log l c m : Act σ Unit).Maintains e Φ := fun _ _ hs ↦ hs

/-- A change keeps what it keeps of each state. -/
theorem maintains_modify {f : σ → σ} (h : ∀ s, Φ s → Φ (f s)) : (modify f).Maintains e Φ :=
  fun s _ hs ↦ h s hs

/-- **Sequencing.** -/
theorem Maintains.bind {x : Act σ α} {f : α → Act σ β} (hx : x.Maintains e Φ)
    (hf : ∀ a, (f a).Maintains e Φ) : (x >>= f).Maintains e Φ := by
  intro s j hs
  have hxj := hx s j hs
  rw [run_bind]
  rcases hrun : x.run e s j with ⟨fault | a, s', j'⟩ <;> rw [hrun] at hxj
  · exact hxj
  · exact hf a s' j' hxj

/-- Acting on a part, if what is kept of the part is what matters. -/
theorem Maintains.on {x : Act τ α} {Ψ : τ → Prop} {part : σ → τ} {put : σ → τ → σ}
    (hx : x.Maintains e Ψ) (hpart : ∀ s, Φ s → Ψ (part s))
    (hput : ∀ s t, Φ s → Ψ t → Φ (put s t)) : (on part put x).Maintains e Φ :=
  fun s j hs ↦ hput s _ hs (hx (part s) j (hpart s hs))

/-- The first of two states does not matter for the second. -/
theorem maintains_first {x : Act τ α} : (first x).Maintains e fun p : τ × σ ↦ Φ p.2 :=
  fun _ _ hp ↦ hp

/-- What is kept of the second state is kept beside the first. -/
theorem Maintains.second {x : Act σ α} (hx : x.Maintains e Φ) :
    (second x).Maintains e fun p : τ × σ ↦ Φ p.2 :=
  fun p j hp ↦ hx p.2 j hp

/-- What is acquired and released beside a state does not matter for it. -/
theorem Maintains.bracketBeside {acquire : Act Unit τ} {release : Act τ Unit} {x : Act (τ × σ) α}
    (hx : x.Maintains e fun p ↦ Φ p.2) : (bracketBeside acquire release x).Maintains e Φ := by
  intro s j hs
  rcases hrun : acquire.run e () j with ⟨fault | t, u, j'⟩
  · simp only [Act.bracketBeside, hrun]
    exact hs
  · simp only [Act.bracketBeside, hrun]
    exact hx (t, s) j' hs

/-- A bracket acts on a state of its own only. -/
theorem maintains_bracket {acquire : Act Unit τ} {release : Act τ Unit} {x : Act τ α} :
    (bracket acquire release x : Act σ α).Maintains e Φ :=
  maintains_first.bracketBeside

/-- What each attempt keeps is kept by any number of them. -/
theorem Maintains.mapM_attempt {f : β → Act σ α} (h : ∀ b, (f b).Maintains e Φ) (hs : Φ s)
    (bs : List β) (j : Journal) :
    ∃ rs s' j', (bs.mapM fun b ↦ (f b).attempt).run e s j = ⟨.ok rs, s', j'⟩ ∧ Φ s' :=
  exists_run_mapM_attempt_of (Φ := fun _ ↦ Φ) (fun _ s b j ↦ h b s j) [] hs bs j

end

end Act

/-! ### Clauses from another component -/

namespace Session

/-- Prunes the candidates of a session by the clauses that an action on another state comes to. -/
def pruneBy (x : Act τ (List Clause)) : Act (Session × τ) Unit := do
  let clauses ← Act.second x
  Act.first (Session.perform (Encoder.clauses clauses))

/-- The clauses are asked for in addition: of the solutions of a session, those remain that stand
for interpretations of which the clauses hold. -/
theorem ensures_pruneBy {A : Atoms} {Φ : Set Interpretation → Prop} {x : Act τ (List Clause)}
    {s : Session} {t : τ} {E : Session × τ → Prop}
    (hx : x.Ensures e t (fun cs _ ↦ ∃ B, A.Selects cs B ∧ Φ B) fun t' ↦ E (s, t')) :
    (pruneBy x).Ensures e (s, t) (fun _ q ↦ ∃ B, Φ B ∧ ∀ v J, A.Encodes v J →
      (AllHold q.1.solver.clauses v ↔ J ∈ B ∧ AllHold s.solver.clauses v)) E := by
  refine hx.second_bind ?_
  rintro cs t' ⟨B, hB, hΦ⟩
  refine ensures_first.2 (ensures_perform_clauses.weaken fun _ s' hs' ↦ ⟨B, hΦ, fun v J hv ↦ ?_⟩)
  rw [hs' v, hB.allHold_iff v J hv]

end Session

/-- A verification of admissibility keeps everything. -/
theorem AdmissibleVerifier.maintains_verify {Φ : AdmissibleVerifier → Prop} (S : Setting)
    (I : Interpretation) : (verify S I).Maintains e Φ := by
  have hprepare : prepare.Maintains e Φ := by
    refine maintains_get.bind fun v ↦ ?_
    split
    · exact maintains_throw
    · exact maintains_pure
  exact hprepare.bind fun _ ↦ maintains_bracket

/-- To accept one of two arguments that exclude each other, and not the other one, is admissible. -/
theorem Framework.admissible_mutualExclusion :
    mutualExclusion.Admissible ⟨[.satisfied, .unsatisfied]⟩ :=
  admissible_iff.2 (le_of_eq (by decide))

/-! ### Calls of a verifier -/

/-- What a verifier is called for: to verify an interpretation, or to prune after that. -/
inductive Verifier.Call where
  | verify (I : Interpretation)
  | prune (I : Interpretation)
  deriving DecidableEq, Repr

namespace Verifier.Call

/-- Carries out a call by the two operations of a verifier. The result is not looked at. -/
def carryOutBy (verify : Interpretation → Act σ Bool)
    (prune : Interpretation → Act σ (List Clause)) : Call → Act σ Unit
  | .verify I => do
    let _ ← verify I
    return ()
  | .prune I => do
    let _ ← prune I
    return ()

/-- What both operations keep is kept by each call. -/
theorem maintains_carryOutBy {Φ : σ → Prop} {verify : Interpretation → Act σ Bool}
    {prune : Interpretation → Act σ (List Clause)} (hverify : ∀ I, (verify I).Maintains e Φ)
    (hprune : ∀ I, (prune I).Maintains e Φ) (c : Call) :
    (c.carryOutBy verify prune).Maintains e Φ := by
  cases c with
  | verify I => exact (hverify I).bind fun _ ↦ maintains_pure
  | prune I => exact (hprune I).bind fun _ ↦ maintains_pure

end Verifier.Call

/-! ### Maximizers that were used before -/

namespace Maximizer

/-- A climb leaves the verifier that it uses as it found it, wherever it ends. -/
theorem maintains_climb {Φ : AdmissibleVerifier → Prop} (n steps : Nat) (I : Interpretation) :
    (climb S n steps I).Maintains e fun q ↦ Φ q.2 := by
  -- nothing is known of the session here, so the climb may end anywhere, also with a fault
  induction n generalizing steps I with
  | zero => exact maintains_throw
  | succ n ih =>
    refine maintains_first.bind fun vs? ↦ ?_
    cases vs? with
    | none => exact maintains_pure
    | some vs =>
      refine (AdmissibleVerifier.maintains_verify S _).second.bind fun b ↦ ?_
      cases b with
      | true => exact maintains_first.bind fun _ ↦ ih _ _
      | false => exact maintains_first.bind fun _ ↦ ih _ _

/-- The types of the links are all that a maximizer may have learned when its session is prepared.
-/
theorem maintains_prepare (he : e.Sound) (I : Interpretation) :
    (prepare S I).Maintains e fun p ↦ p.2.IsReady S := by
  -- the types do not depend on the interpretation, so one of another framework does no harm
  have hkept : (keptLinkTypes S.framework).Maintains e fun types? ↦
      ∀ types ∈ types?, types = S.framework.allTypes :=
    Ensures.maintains fun _ h ↦ (ensures_keptLinkTypes he h).weaken fun _ _ h' ↦ h'.2
  have htypes : (on Maximizer.types (fun m types ↦ { m with types })
      (keptLinkTypes S.framework)).Maintains e (IsReady S) :=
    hkept.on (fun _ hm ↦ hm.types_eq) fun _ _ hm h ↦ ⟨h, hm.closed_eq⟩
  refine maintains_first.bind fun _ ↦ htypes.second.bind fun types ↦ ?_
  exact maintains_get.bind fun p ↦ maintains_first

/-- **A maximizer stays ready**, whatever it is called for and however the call ends. -/
theorem maintains_process (he : e.Sound) (I : Interpretation) :
    (process S I).Maintains e (IsReady S) := by
  have hclimb : (on (fun p : Session × Maximizer ↦ (p.1, p.2.admissible))
      (fun p q ↦ (q.1, { p.2 with admissible := q.2 })) (climb S S.budget 0 I)).Maintains e
      fun p ↦ p.2.IsReady S :=
    (maintains_climb (Φ := fun v ↦ v.closed = false) _ 0 I).on (fun _ hp ↦ hp.closed_eq)
      fun _ _ hp h ↦ ⟨hp.types_eq, h⟩
  refine ((maintains_prepare he I).bind fun _ ↦ hclimb).bracketBeside.bind fun a ↦ ?_
  exact maintains_log.bind fun _ ↦ maintains_pure

/-- **Maximization after any history.** However often a maximizer was called before, and for
whatever: if something admissible is strictly above an interpretation, be this admissible or not,
the maximizer ends with something preferred strictly above it; if nothing is, with the
interpretation itself. -/
theorem process_after_history (F : Framework) (k : Nat) (e : Engine) (he : e.Correct)
    (history : List Interpretation) (I : Interpretation) (hI : I.size = F.size) (j : Journal) :
    ∃ rs m i J m' i',
      (history.mapM fun K ↦ (process (.of F) K).attempt).run e { k } j = ⟨.ok rs, m, i⟩ ∧
      (process (.of F) I).run e m i = ⟨.ok J, m', i'⟩ ∧
      ((∃ K, F.Admissible K ∧ I < K) → F.Preferred J ∧ I < J) ∧
      ((¬∃ K, F.Admissible K ∧ I < K) → J = I) := by
  have hnew : IsReady (.of F) { k } := ⟨by simp, rfl⟩
  obtain ⟨rs, m, i, hhistory, hm⟩ :=
    Maintains.mapM_attempt (fun K ↦ maintains_process he.sound K) hnew history j
  obtain ⟨J, m', i', hrun, hJ, -⟩ :=
    (ensures_process (Setting.fits_of F) he.sound hm hI).exists_ok he.decisive i
  refine ⟨rs, m, i, J, m', i', hhistory, hrun, ?_, fun hnone ↦ ?_⟩
  · rintro ⟨K, hK, hlt⟩
    exact hJ.preferred_of_lt hK hlt
  · exact hJ.eq_of_forall_not_lt fun K hK hlt ↦ hnone ⟨K, hK, hlt⟩

/-- The case of two arguments that exclude each other, one of which is satisfied; that alone is not
admissible. Before, the maximizer was called for something that is no interpretation of them. -/
theorem process_after_history_mutualExclusion :
    Engine.exhaustive.Correct ∧
    (⟨[.satisfied, .undecided]⟩ : Interpretation).size = Framework.mutualExclusion.size ∧
    ∃ rs m i J m' i',
      ([⟨[.satisfied]⟩, ⟨[.satisfied, .satisfied]⟩].mapM fun K ↦
        (process (.of .mutualExclusion) K).attempt).run .exhaustive { k := 2 } .empty =
          ⟨.ok rs, m, i⟩ ∧
      (process (.of .mutualExclusion) ⟨[.satisfied, .undecided]⟩).run .exhaustive m i =
        ⟨.ok J, m', i'⟩ ∧
      Framework.mutualExclusion.Preferred J ∧ ⟨[.satisfied, .undecided]⟩ < J := by
  have he := Engine.exhaustive_correct
  have hsize : (⟨[.satisfied, .undecided]⟩ : Interpretation).size =
      Framework.mutualExclusion.size := rfl
  have hle : (⟨[.satisfied, .undecided]⟩ : Interpretation) ≤ ⟨[.satisfied, .unsatisfied]⟩ := by
    rw [← Interpretation.extends?_iff (by rfl)]
    decide
  have hlt := Interpretation.lt_iff_le_and_decides.2 ⟨hle, 1, false, by decide, by decide⟩
  obtain ⟨rs, m, i, J, m', i', hhistory, hrun, hlarger, -⟩ :=
    process_after_history .mutualExclusion 2 .exhaustive he
      [⟨[.satisfied]⟩, ⟨[.satisfied, .satisfied]⟩] _ hsize .empty
  exact ⟨he, hsize, rs, m, i, J, m', i', hhistory, hrun,
    hlarger ⟨_, Framework.admissible_mutualExclusion, hlt⟩⟩

end Maximizer

/-! ### Verifiers of preference that were used before -/

namespace PreferredVerifier

open Verifier (Call)

/-- The search for something admissible leaves the verifier that it uses as it found it. -/
theorem maintains_firstAdmissible {Φ : AdmissibleVerifier → Prop} (n : Nat) :
    (firstAdmissible S n).Maintains e fun q ↦ Φ q.2 := by
  induction n with
  | zero => exact maintains_throw
  | succ n ih =>
    refine maintains_first.bind fun vs? ↦ ?_
    cases vs? with
    | none => exact maintains_pure
    | some vs =>
      refine (AdmissibleVerifier.maintains_verify S _).second.bind fun b ↦ ?_
      cases b with
      | true => exact maintains_pure
      | false => exact maintains_first.bind fun _ ↦ ih

/-- And so does the whole search, with the session that is opened for it. -/
theorem maintains_findLarger {Φ : AdmissibleVerifier → Prop} (I : Interpretation) :
    (findLarger S I).Maintains e Φ :=
  (maintains_first.bind fun _ ↦ maintains_firstAdmissible _).bracketBeside

/-- What is remembered or forgotten does not matter. -/
theorem maintains_remember (larger : Option Interpretation) :
    (modify fun w : PreferredVerifier ↦ { w with larger }).Maintains e IsReady :=
  maintains_modify fun _ hw ↦ hw

/-- **A verifier stays ready**, whatever it is called for and however the call ends. -/
theorem maintains_verify (I : Interpretation) : (verify S I).Maintains e IsReady := by
  have hon : ∀ {α : Type} {x : Act AdmissibleVerifier α},
      (x.Maintains e fun v ↦ v.closed = false) → (onAdmissible x).Maintains e IsReady :=
    fun hx ↦ hx.on (fun _ hw ↦ hw) fun _ _ _ h ↦ h
  refine (maintains_remember none).bind fun _ ↦ ?_
  refine (hon (AdmissibleVerifier.maintains_verify S I)).bind fun b ↦ ?_
  cases b with
  | false => exact maintains_pure
  | true =>
    refine (hon (maintains_findLarger I)).bind fun larger ↦ ?_
    exact (maintains_remember larger).bind fun _ ↦ maintains_pure

/-- Pruning forgets the larger interpretation, which need not be kept. -/
theorem maintains_prune (I : Interpretation) : (prune S I).Maintains e IsReady := by
  refine maintains_get.bind fun w ↦ ?_
  split
  · exact (maintains_remember none).bind fun _ ↦ maintains_pure
  · exact maintains_pure

/-- **Pruning after a verification** takes nothing preferred out of a session. -/
theorem ensures_pruneBy {E : Session × PreferredVerifier → Prop} {s : Session}
    {w : PreferredVerifier} (hw : w.IsReady) (hI : I.size = S.atoms.size)
    (hr : w.Remembers S.framework I) :
    (Session.pruneBy (prune S I)).Ensures e (s, w) (fun _ p ↦ ∀ v J, S.framework.Preferred J →
      S.atoms.Encodes v J → AllHold s.solver.clauses v → AllHold p.1.solver.clauses v) E := by
  have hprune : (prune S I).Ensures e w (fun cs _ ↦ ∃ B, S.atoms.Selects cs B ∧
      ∀ J, S.framework.Preferred J → J ∈ B) fun w' ↦ E (s, w') :=
    (ensures_prune hw hI hr).weaken fun _ _ h ↦ h.2
  refine (Session.ensures_pruneBy hprune).weaken ?_
  rintro - p ⟨B, hB, hp⟩ v J hJ hv hs
  exact (hp v J hv).2 ⟨hB J hJ, hs⟩

/-- **Verification of preference after any history.** However a verifier was used before: it accepts
an interpretation if and only if this is preferred; it has a larger interpretation to show if and
only if the interpretation is admissible and not preferred, and that one is admissible and strictly
larger; and pruning takes no solution that stands for a preferred interpretation out of any
session. -/
theorem verify_after_history (F : Framework) (e : Engine) (he : e.Correct) (history : List Call)
    (I : Interpretation) (hI : I.size = F.size) (j : Journal) :
    ∃ rs w i b w' i',
      (history.mapM fun c ↦ (Call.carryOutBy (verify (.of F)) (prune (.of F)) c).attempt).run e {}
        j = ⟨.ok rs, w, i⟩ ∧
      (verify (.of F) I).run e w i = ⟨.ok b, w', i'⟩ ∧
      (b ↔ F.Preferred I) ∧
      (w'.larger.isSome ↔ F.Admissible I ∧ ¬F.Preferred I) ∧
      (∀ K, w'.larger = some K → F.Admissible K ∧ I < K) ∧
      ∀ (s : Session) (l : Journal), ∃ p l',
        (Session.pruneBy (prune (.of F) I)).run e (s, w') l = ⟨.ok (), p, l'⟩ ∧
        ∀ v J, F.Preferred J → (Atoms.of F).Encodes v J → AllHold s.solver.clauses v →
          AllHold p.1.solver.clauses v := by
  have hnew : IsReady {} := rfl
  obtain ⟨rs, w, i, hhistory, hw⟩ :=
    Maintains.mapM_attempt (Call.maintains_carryOutBy (maintains_verify (S := .of F) (e := e))
      maintains_prune) hnew history j
  obtain ⟨b, w', i', hrun, hb, hw', hr, hlarger⟩ :=
    (ensures_verify_larger (Setting.fits_of F) he.sound hw hI).exists_ok he.decisive i
  refine ⟨rs, w, i, b, w', i', hhistory, hrun, hb, hlarger, fun K hK ↦ (hr K hK).symm, ?_⟩
  intro s l
  obtain ⟨⟨⟩, p, l', hprune, hp⟩ := (ensures_pruneBy hw' hI hr).exists_run l
  exact ⟨p, l', hprune, hp⟩

/-- The case of two arguments that exclude each other. The verifier was used to verify something
that is no interpretation of them, and to prune after that; now it finds that to leave both
undecided is admissible and not preferred. -/
theorem verify_after_history_mutualExclusion :
    Engine.exhaustive.Correct ∧
    (Interpretation.blank 2).size = Framework.mutualExclusion.size ∧
    ∃ rs w i w' i' K,
      ([.verify ⟨[.satisfied]⟩, .prune ⟨[.satisfied]⟩].mapM fun c ↦
        (Call.carryOutBy (verify (.of .mutualExclusion)) (prune (.of .mutualExclusion))
          c).attempt).run .exhaustive {} .empty = ⟨.ok rs, w, i⟩ ∧
      (verify (.of .mutualExclusion) (.blank 2)).run .exhaustive w i = ⟨.ok false, w', i'⟩ ∧
      w'.larger = some K ∧ Framework.mutualExclusion.Admissible K ∧ .blank 2 < K := by
  have he := Engine.exhaustive_correct
  have hsize : (Interpretation.blank 2).size = Framework.mutualExclusion.size := rfl
  have hblank : Framework.mutualExclusion.Admissible (.blank 2) :=
    Framework.admissible_iff.2 (Interpretation.blank_le rfl)
  have hlt : Interpretation.blank 2 < ⟨[.satisfied, .unsatisfied]⟩ :=
    Interpretation.lt_iff_le_and_decides.2
      ⟨Interpretation.blank_le rfl, 0, true, by decide, by decide⟩
  have hnot : ¬Framework.mutualExclusion.Preferred (.blank 2) := fun h ↦
    (Framework.preferred_iff.1 h).2 _ Framework.admissible_mutualExclusion hlt
  obtain ⟨rs, w, i, b, w', i', hhistory, hrun, hb, hsome, hlarger, -⟩ :=
    verify_after_history .mutualExclusion .exhaustive he
      [.verify ⟨[.satisfied]⟩, .prune ⟨[.satisfied]⟩] _ hsize .empty
  obtain rfl : b = false := Bool.eq_false_iff.2 fun h ↦ hnot (hb.1 h)
  obtain ⟨K, hK⟩ := Option.isSome_iff_exists.1 (hsome.2 ⟨hblank, hnot⟩)
  exact ⟨he, hsize, rs, w, i, w', i', K, hhistory, hrun, hK, hlarger K hK⟩

end PreferredVerifier

end Dialectical
