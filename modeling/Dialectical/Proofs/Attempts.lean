import Dialectical.Proofs.Engines
import Dialectical.Proofs.Listings

/-!
# Attempts with a solver that gives up

A request for a result ends with a fault if the solver gives up a call. The pipeline can be asked
again then, and it may have stopped anywhere: before it was opened, while a candidate was compared
with a larger one, or in the middle of a round of the ground generator. What each component keeps
when it is stopped is part of what it ensures, so for a pipeline it is one more case of a request
(`Plan.Delivers.attempt`): the results so far stay what they were. By induction this is so after any
number of attempts (`Act.exists_run_mapM_attempt_along`, `Plan.Delivers.mapM_attempt`).

That an attempt ends with a fault exactly if a call was given up does not depend on what was
attempted before (`Act.Ensures.fault_iff`).
-/

namespace Dialectical

variable {σ α β : Type} {e : Engine} {S : Setting}

/-! ### Attempts -/

/-- The action with its result kept, whether it is a value or a fault. -/
def Act.attempt (x : Act σ α) : Act σ (Except Fault α) :=
  ⟨fun e s j ↦
    let o := x.run e s j
    ⟨.ok o.result, o.state, o.journal⟩⟩

/-- After an attempt one goes on in any case. -/
theorem Act.run_attempt_bind (x : Act σ α) (f : Except Fault α → Act σ β) (e : Engine) (s : σ)
    (j : Journal) :
    (x.attempt >>= f).run e s j =
      (f (x.run e s j).result).run e (x.run e s j).state (x.run e s j).journal := rfl

/-- **Any number of attempts**, by induction on it: all of them are made, and what each of them
keeps of what was attempted so far, the results and the state is kept. -/
theorem Act.exists_run_mapM_attempt_along {x : β → Act σ α}
    {Φ : List β → List (Except Fault α) → σ → Prop}
    (h : ∀ as rs s b j, Φ as rs s →
      Φ (as ++ [b]) (rs ++ [((x b).run e s j).result]) ((x b).run e s j).state)
    (as : List β) (rs : List (Except Fault α)) {s : σ} (hs : Φ as rs s) (bs : List β)
    (j : Journal) :
    ∃ rs' s' j', (bs.mapM fun b ↦ (x b).attempt).run e s j = ⟨.ok rs', s', j'⟩ ∧
      Φ (as ++ bs) (rs ++ rs') s' := by
  induction bs generalizing as rs s j with
  | nil => exact ⟨[], s, j, rfl, by rwa [List.append_nil, List.append_nil]⟩
  | cons b bs ih =>
    obtain ⟨rs', s', j', hrun, hs'⟩ := ih _ _ (h as rs s b j hs) ((x b).run e s j).journal
    refine ⟨((x b).run e s j).result :: rs', s', j', ?_, ?_⟩
    · rw [List.mapM_cons, run_attempt_bind, run_bind, hrun]
      rfl
    · rwa [List.append_assoc, List.append_assoc] at hs'

/-- The case in which it does not matter what was attempted. -/
theorem Act.exists_run_mapM_attempt_of {x : β → Act σ α} {Φ : List (Except Fault α) → σ → Prop}
    (h : ∀ rs s b j, Φ rs s → Φ (rs ++ [((x b).run e s j).result]) ((x b).run e s j).state)
    (rs : List (Except Fault α)) {s : σ} (hs : Φ rs s) (bs : List β) (j : Journal) :
    ∃ rs' s' j', (bs.mapM fun b ↦ (x b).attempt).run e s j = ⟨.ok rs', s', j'⟩ ∧
      Φ (rs ++ rs') s' :=
  exists_run_mapM_attempt_along (Φ := fun _ ↦ Φ) (fun _ ↦ h) [] rs hs bs j

namespace Pipeline

/-- The interpretation that a request returned, if it did not end with a fault. -/
def returned? (r : Except Fault (Option Interpretation)) : Option Interpretation := r.toOption.join

/-- The interpretations that some requests returned. -/
def returned (rs : List (Except Fault (Option Interpretation))) : List Interpretation :=
  rs.filterMap returned?

/-- What the last attempt returned comes last. -/
theorem returned_concat (rs : List (Except Fault (Option Interpretation)))
    (r : Except Fault (Option Interpretation)) :
    returned (rs ++ [r]) = returned rs ++ (returned? r).toList := by
  rw [returned, List.filterMap_append, List.filterMap_cons]
  cases returned? r <;> rfl

namespace Plan

variable {P : Plan} {L : List Interpretation} {p : Pipeline}

/-- **An attempt** adds its result, if it has one, to those so far. -/
theorem Delivers.attempt (h : P.Delivers e S ∅ L p) (hP : P.Serves e S) (j : Journal) :
    P.Delivers e S ∅ (L ++ (returned? ((Pipeline.next S).run e p j).result).toList)
      ((Pipeline.next S).run e p j).state := by
  have hnext := h.next hP (Set.empty_subset _) j
  rcases hrun : (Pipeline.next S).run e p j with ⟨fault | J?, p', i⟩ <;> rw [hrun] at hnext
  · obtain ⟨-, -, hfault, -⟩ := hnext
    exact (List.append_nil L).symm ▸ hfault
  · obtain ⟨hanswers, -⟩ := hnext
    cases J? with
    | none => exact (List.append_nil L).symm ▸ hanswers.2
    | some J => exact hanswers

/-- **Any number of attempts** add the results that they have. -/
theorem Delivers.mapM_attempt (h : P.Delivers e S ∅ L p) (hP : P.Serves e S) (as : List Nat)
    (j : Journal) :
    ∃ rs p' i, (as.mapM fun _ ↦ (Pipeline.next S).attempt).run e p j = ⟨.ok rs, p', i⟩ ∧
      P.Delivers e S ∅ (L ++ returned rs) p' := by
  refine Act.exists_run_mapM_attempt_of (Φ := fun rs ↦ P.Delivers e S ∅ (L ++ returned rs))
    (fun rs q _ j' hq ↦ ?_) [] ((List.append_nil L).symm ▸ h) as j
  rw [returned_concat, ← List.append_assoc]
  exact hq.attempt hP j'

end Plan

/-! ### Pipelines that are asked again -/

/-- **A solver that gives up never leads to a wrong model.** Whatever calls the engine gives up, and
however often the pipeline of a semantics is asked: what it returned are distinct models that extend
the given interpretation, and a request ends with a fault if and only if a call was given up during
it. -/
theorem returned_of_attempts (F : Framework) (semantics : Semantics) (k : Nat)
    (given : Option Interpretation) (hgiven : ∀ J ∈ given, J.size = F.size) (e : Engine)
    (he : e.Sound) (m : Nat) (j : Journal) :
    ∃ rs p i,
      ((List.range m).mapM fun _ ↦ (Pipeline.next (.of F)).attempt).run e
        (Reasoner.assemble { setting := .of F, semantics, k } given) j = ⟨.ok rs, p, i⟩ ∧
      (returned rs).Nodup ∧
      (∀ I ∈ returned rs, F.IsModel semantics I ∧ ∀ J ∈ given, J ≤ I) ∧
      (((Pipeline.next (.of F)).run e p i).result = .error .unknownAnswer ↔
        i.unanswered < ((Pipeline.next (.of F)).run e p i).journal.unanswered) ∧
      ∀ fault, ((Pipeline.next (.of F)).run e p i).result = .error fault →
        fault = .unknownAnswer := by
  have hlists := Reasoner.lists_assemble { setting := .of F, semantics, k } (Setting.fits_of F) he
    hgiven
  obtain ⟨P, hP, hp, -, hresults⟩ := hlists.exists_plan
  have hdelivers : P.Delivers e (.of F) ∅ [] _ := hp.delivers hlists.stage_eq hlists.candidates_eq
  obtain ⟨rs, p, i, hrun, hrs⟩ := hdelivers.mapM_attempt hP (List.range m) j
  have hnext := hrs.next hP (Set.empty_subset _)
  exact ⟨rs, p, i, hrun, hrs.nodup, fun I hI ↦ (hresults I).1 (hrs.mem_results I hI),
    hnext.fault_iff i, fun _ hfault ↦ hnext.eq_unknownAnswer hfault⟩

/-- The case of two arguments that exclude each other: every third call is given up. -/
theorem returned_of_attempts_mutualExclusion :
    (∀ J ∈ some (⟨[.satisfied, .undecided]⟩ : Interpretation),
      J.size = Framework.mutualExclusion.size) ∧
    (Engine.exhaustive.givingUp fun n ↦ n % 3 = 1).Sound ∧
    ∃ rs p i,
      ((List.range 4).mapM fun _ ↦ (Pipeline.next (.of .mutualExclusion)).attempt).run
        (Engine.exhaustive.givingUp fun n ↦ n % 3 = 1)
        (Reasoner.assemble { setting := .of .mutualExclusion, semantics := .preferred, k := 2 }
          (some ⟨[.satisfied, .undecided]⟩)) .empty = ⟨.ok rs, p, i⟩ ∧
      (returned rs).Nodup ∧ ∀ I ∈ returned rs, Framework.mutualExclusion.Preferred I := by
  have he := Engine.exhaustive_correct.sound.givingUp fun n ↦ n % 3 = 1
  have hgiven := Framework.size_eq_of_satisfied_undecided
  obtain ⟨rs, p, i, hrun, hnodup, hrs, -⟩ :=
    returned_of_attempts _ .preferred 2 _ hgiven _ he 4 .empty
  exact ⟨hgiven, he, rs, p, i, hrun, hnodup, fun I hI ↦ (hrs I hI).1⟩

end Pipeline

end Dialectical
