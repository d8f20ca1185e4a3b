import Dialectical.Proofs.Generators
import Dialectical.Proofs.WorstCases

/-!
# Confined sessions

A session confined to a set of interpretations shows nothing outside of it, and it still shows all
admissible interpretations in the set in their worst cases, **whatever** their undecided arguments
see (`Session.ConfinedTo`). This is kept by the clauses for the worst cases, and by clauses over the
argument atoms with a smaller set. Which other interpretations are shown depends on the bound on
enumeration, so it is all that is known of a session to which worst cases may have been added.

It is enough for two things. The offer of a confined session has everything admissible in it
(`Session.ConfinedTo.exists_offers`), and verifiers reject the rest. And above admissible decisions
a condition can have the same values as without the worst cases
(`Session.ConfinedTo.exists_verdict_iff`), so they do not turn a value that is free into one that is
forced.
-/

namespace Dialectical

open Act Clause

variable {α : Type} {e : Engine} {S : Setting} {B C C' : Set Interpretation}

/-- What the session shows is in `C`, and everything admissible in `C` is shown in its worst cases,
with every choice of what undecided arguments see. -/
def Session.ConfinedTo (S : Setting) (C : Set Interpretation) (s : Session) : Prop :=
  ∃ P, s.Means S.atoms.count P ∧ (∀ v, P v → S.ShowsIn C v) ∧
    ∀ I ∈ C, S.framework.Admissible I → ∀ v, S.ShowsWorst v I → P v

/-- At the beginning a session is confined to what it shows, and no worst case is excluded. -/
theorem Session.Means.confinedTo {s : Session} (h : s.Means S.atoms.count (S.ShowsIn C)) :
    s.ConfinedTo S C :=
  ⟨_, h, fun _ hv ↦ hv, fun I hI _ _ hv ↦ ⟨I, hI, hv.toShows⟩⟩

namespace Session.ConfinedTo

variable {s s' : Session} {cs D : List Clause} {m : Nat} {Q : (Variable → Bool) → Prop}
  {E : Session → Prop} {J : Interpretation} {a : Nat} {b : Bool}

theorem pending (h : s.ConfinedTo S C) : s.pending = [] :=
  let ⟨_, hP, _⟩ := h
  hP.pending

/-- A question changes nothing of what a session is confined to. -/
theorem asked (h : s.ConfinedTo S C) (h' : s.Asked s') : s'.ConfinedTo S C :=
  let ⟨P, hP, hC⟩ := h
  ⟨P, hP.asked h', hC⟩

/-! ### What confined sessions are told -/

/-- What a confined session is told may narrow the set, as long as it says nothing else of
admissible interpretations in their worst cases. -/
theorem told (h : s.ConfinedTo S C) (hm : s.solver.known ≤ m) (hD : ∀ c ∈ D, span c ≤ m)
    (hmean : Mean s.solver.known D Q) (hQ : LocalBelow S.atoms.count Q)
    (hsound : ∀ v, S.ShowsIn C v → Q v → S.ShowsIn C' v)
    (hcomplete : ∀ I ∈ C', S.framework.Admissible I → I ∈ C ∧ ∀ v, S.ShowsWorst v I → Q v) :
    (s.told m D).ConfinedTo S C' := by
  obtain ⟨P, hP, hshown, hworst⟩ := h
  refine ⟨_, hP.told hm hD hmean hQ, fun v hv ↦ hsound v (hshown v hv.1) hv.2, ?_⟩
  intro I hI hadm v hv
  obtain ⟨hIC, hIQ⟩ := hcomplete I hI hadm
  exact ⟨hworst I hIC hadm v hv, hIQ v hv⟩

/-- **The worst cases** exclude nothing admissible, and take no clause back. -/
theorem addBipolar (h : s.ConfinedTo S C) (hS : S.Fits) (k : Nat) :
    (S.addBipolar S.framework.allTypes k).Ensures e s
      (fun _ s' ↦ s'.ConfinedTo S C ∧ s.solver.clauses ⊆ s'.solver.clauses) E := by
  obtain ⟨counts, hcounts⟩ := hS.imposes_bipolar k
  obtain ⟨P, hP, -⟩ := id h
  obtain ⟨m, D, hD, hmean⟩ := hcounts.gives _ hP.le_known
  refine (ensures_perform hD).bind ?_
  rintro _ _ ⟨rfl, rfl⟩
  refine ensures_log.2 ⟨?_, List.subset_append_right _ _⟩
  refine h.told hD.le hD.span_le hmean hcounts.localBelow (fun v hv _ ↦ hv) ?_
  intro I hI hadm
  refine ⟨hI, fun v hv a ha ↦ hv.worstCasesAt hS hadm ?_ k⟩
  exact hS.size_eq ▸ Framework.mem_arguments.1 ha

/-- Clauses over the argument atoms say nothing of links, so they may be told. -/
theorem told_selects (h : s.ConfinedTo S C) (hcs : S.atoms.Selects cs B)
    (hm : s.solver.known ≤ m) (hD : ∀ c ∈ D, span c ≤ m)
    (hmean : Mean s.solver.known D (AllHold cs)) : (s.told m D).ConfinedTo S (C ∩ B) := by
  refine h.told hm hD hmean hcs.imposes.localBelow ?_ ?_
  · exact fun v hv hcsv ↦ (Setting.showsIn_inter hcs).1 ⟨hv, hcsv⟩
  · exact fun I hI _ ↦ ⟨hI.1, fun v hv ↦ (hcs.allHold_iff v I hv.encodes).2 hI.2⟩

/-- Clauses over the argument atoms narrow the set. -/
theorem perform (h : s.ConfinedTo S C) (hcs : S.atoms.Selects cs B) :
    (Session.perform (Encoder.clauses cs)).Ensures e s (fun _ s' ↦ s'.ConfinedTo S (C ∩ B)) E := by
  obtain ⟨P, hP, -⟩ := id h
  obtain ⟨m, D, hD, hmean⟩ := hcs.imposes.gives _ hP.le_known
  refine (ensures_perform hD).weaken fun _ s' hs' ↦ ?_
  rw [hs'.2]
  exact h.told_selects hcs hD.le hD.span_le hmean

/-- So does a single clause, which is added to those that are there. -/
theorem add {c : Clause} (h : s.ConfinedTo S C) (hc : S.atoms.Selects [c] B) :
    (Session.add c).Ensures e s
      (fun _ s' ↦ s'.ConfinedTo S (C ∩ B) ∧ s'.solver.clauses = c :: s.solver.clauses) E := by
  refine ensures_add.weaken fun _ s' hs' ↦ ?_
  rw [hs']
  refine ⟨h.told_selects hc (le_max_left _ _) (fun d hd ↦ ?_) (mean_self _ _), rfl⟩
  exact List.mem_singleton.1 hd ▸ le_max_right _ _

/-! ### What confined sessions answer -/

/-- **The offer of a confined session** is conflict-free, and everything admissible is in it. -/
theorem exists_offers (h : s.ConfinedTo S C) (hS : S.Fits) :
    ∃ R, s.Offers S.atoms R ∧ (∀ I ∈ R, S.framework.ConflictFree I ∧ I ∈ C) ∧
      ∀ I ∈ C, S.framework.Admissible I → I ∈ R := by
  obtain ⟨P, hP, hshown, hworst⟩ := h
  -- what a model shows is what its argument atoms stand for
  refine ⟨{I | ∃ v, P v ∧ S.atoms.Encodes v I}, ⟨P, hP, fun v hv ↦ ?_, fun I hI ↦ hI⟩, ?_, ?_⟩
  · obtain ⟨I, -, hI⟩ := hshown v hv
    exact ⟨I, ⟨v, hv, hI.encodes⟩, hI.encodes⟩
  · rintro I ⟨v, hv, hvI⟩
    obtain ⟨J, hJ, hvJ⟩ := hshown v hv
    obtain rfl := hvI.unique hvJ.encodes
    exact ⟨hS.exists_shows_iff.1 ⟨v, hvJ⟩, hJ⟩
  · intro I hI hadm
    obtain ⟨v, hv⟩ := hS.exists_showsWorst hadm
    exact ⟨v, hworst I hI hadm v hv, hv.encodes⟩

/-- **What a condition can be** above an admissible interpretation: it can have exactly the values
that the completions allow. -/
theorem exists_verdict_iff (h : s.ConfinedTo S {I | J ≤ I}) (hS : S.Fits)
    (hJ : S.framework.Admissible J) :
    (∃ v, AllHold s.solver.clauses v ∧ S.verdict v a = b) ↔ S.framework.Allows J a b := by
  obtain ⟨P, hP, hshown, hworst⟩ := h
  rw [hP.exists_iff (hS.localBelow_verdict a b)]
  constructor
  · rintro ⟨v, hv, hb⟩
    obtain ⟨I, hJI, hvI⟩ := hshown v hv
    obtain ⟨w, hw, heval⟩ := (hvI.seesDecided a).exists_completion
    exact ⟨w, hw.mono hJI, heval.trans hb⟩
  · intro hallows
    obtain ⟨v, hv, hb⟩ := hS.exists_showsWorst_verdict hJ hallows
    exact ⟨v, hworst J (le_refl J) hJ v hv, hb⟩

/-- Admissible interpretations in the set are models. -/
theorem solvable (h : s.ConfinedTo S C) (hS : S.Fits) (hJ : S.framework.Admissible J)
    (hJC : J ∈ C) : Solvable s.solver.clauses [] := by
  obtain ⟨P, hP, -, hworst⟩ := h
  obtain ⟨v, hv⟩ := hS.exists_showsWorst hJ
  rw [← hP.pending, hP.solvable_iff]
  exact ⟨v, hworst J hJC hJ v hv⟩

end Session.ConfinedTo

end Dialectical
