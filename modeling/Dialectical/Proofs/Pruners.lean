import Dialectical.Proofs.Pipelines

/-!
# Sources of candidates

The candidates of a pipeline come from a generator with pruners. Pruners add the clauses for the
worst cases to the session of the generator, with any bounds and any number of times. So what is
known of the session has to be something that these clauses keep (`Pruner.ensures_prune`), and then
the pruners do no harm. There are three kinds of sources (`Pipeline.Source.Gives`).

* A *confined* source owes all admissible candidates; which others it owes depends on the bounds of
  its pruners.
* A source without pruners owes all conflict-free candidates.
* A *ground* source owes the ground interpretation, since worst cases do not turn a value that is
  free into one that is forced.
-/

namespace Dialectical

open Act

variable {e : Engine} {S : Setting} {goal : Goal} {given : Option Interpretation}
  {I J G : Interpretation} {D M : Set Interpretation}

/-! ### What generators are asked for -/

namespace Generator

/-- The interpretations a generator is to produce, unless it is for the ground interpretation. -/
def candidates (S : Setting) (goal : Goal) (given : Option Interpretation) : Set Interpretation :=
  {I | S.framework.ConflictFree I ∧ I ∈ scope goal given}

/-- Candidates are about as many arguments as there are atoms for. -/
theorem size_eq_of_mem_candidates (hS : S.Fits) (hI : I ∈ candidates S goal given) :
    I.size = S.atoms.size :=
  hI.1.size_eq.trans hS.size_eq.symm

/-- What is larger is in the scope as well. -/
theorem mem_scope_of_le (hI : I ∈ scope goal given) (hle : I ≤ J) : J ∈ scope goal given := by
  refine ⟨fun hgoal ↦ ?_, fun K hK ↦ (hI.2 K hK).trans hle⟩
  rw [← Interpretation.eq_of_le_of_isTwoValued hle (hI.1 hgoal)]
  exact hI.1 hgoal

end Generator

/-! ### Pruners -/

namespace Pruner

variable {g : Generator} {q : Pruner} {Φ : NamedSession → Prop}

/-- The types that the pruner keeps, if it keeps them, are those of the links. -/
def IsFaithful (S : Setting) (q : Pruner) : Prop :=
  ∀ types ∈ q.types, types = S.framework.allTypes

/-- New pruners, with these bounds on enumeration. -/
def newAll (ks : List Nat) : List Pruner := ks.map ({ k := · })

/-- New pruners keep no types yet. -/
theorem isFaithful_newAll (S : Setting) (ks : List Nat) : ∀ q ∈ newAll ks, q.IsFaithful S := by
  simp [newAll, IsFaithful]

/-- A pruner finds the types or has them, and keeps them. -/
theorem ensures_linkTypes (he : e.Sound) (hq : q.IsFaithful S) :
    (linkTypes S).Ensures e q
      (fun types q' ↦ types = S.framework.allTypes ∧ q'.IsFaithful S) fun q' ↦ q'.IsFaithful S :=
  ensures_on.2 (ensures_keptLinkTypes he hq)

/-- Worst cases, whatever the bound on enumeration, keep what is true of a session. -/
def IsKept (S : Setting) (e : Engine) (Φ : NamedSession → Prop) : Prop :=
  ∀ k s, Φ s → (NamedSession.onSession (S.addBipolar S.framework.allTypes k)).Ensures e s
    (fun _ s' ↦ Φ s') Φ

/-- **A pruner** keeps what worst cases keep. -/
theorem ensures_prune (he : e.Sound) (hΦ : IsKept S e Φ) (hg : g.Opened goal given Φ)
    (hq : q.IsFaithful S) : (prune S).Ensures e (g, q)
      (fun _ p ↦ p.1.Opened goal given Φ ∧ p.2.IsFaithful S)
      fun p ↦ p.1.Keeps S e goal given Φ ∧ p.2.IsFaithful S := by
  refine hg.keeps.prepare.first_bind fun _ g' hg' ↦ ?_
  refine ((ensures_linkTypes he hq).weakenFault fun _ hq' ↦ ⟨hg'.keeps, hq'⟩).second_bind ?_
  rintro _ q' ⟨rfl, hq'⟩
  rw [ensures_get_bind]
  refine ensures_first.2 ((hg'.keeps.use fun s hs ↦ hΦ q'.k s hs).mono ?_ ?_)
  · exact fun _ _ h ↦ ⟨h, hq'⟩
  · exact fun _ h ↦ ⟨h.keeps, hq'⟩

/-- **Any list of pruners** keeps what worst cases keep. -/
theorem ensures_through_prune {qs : List Pruner} (he : e.Sound) (hΦ : IsKept S e Φ)
    (hg : g.Opened goal given Φ) (hqs : ∀ q ∈ qs, q.IsFaithful S) :
    (Act.through (fun _ ↦ prune S) ()).Ensures e (g, qs)
      (fun _ p ↦ p.1.Opened goal given Φ ∧ ∀ q ∈ p.2, q.IsFaithful S)
      fun p ↦ p.1.Keeps S e goal given Φ ∧ ∀ q ∈ p.2, q.IsFaithful S :=
  ensures_through (I := fun _ (g : Generator) ↦ g.Opened goal given Φ)
    (fun _ _ _ hg hq ↦ ensures_prune he hΦ hg hq) hg hqs

end Pruner

/-! ### Sources -/

namespace Pipeline.Source

variable {g : Generator}

/-- A generator with any pruners, of whose session it is known that it is confined. -/
def confined (S : Setting) (goal : Goal) (given : Option Interpretation) : Source where
  goal := goal
  given := given
  kept s := s.session.ConfinedTo S (Generator.scope goal given)
  pruners qs := ∀ q ∈ qs, q.IsFaithful S

/-- A generator without pruners. -/
def unpruned (S : Setting) (goal : Goal) (given : Option Interpretation) : Source where
  goal := goal
  given := given
  kept s := s.session.Offers S.atoms (Generator.candidates S goal given)
  pruners := (· = [])

/-- The generator of the ground interpretation `G` with any pruners. -/
def ground (S : Setting) (G : Interpretation) (given : Option Interpretation) : Source where
  goal := .ground
  given := given
  kept s := ∃ J, S.Grounds G J s
  pruners qs := ∀ q ∈ qs, q.IsFaithful S

/-! ### New generators -/

/-- A new generator is such a source: its session shows what is in the scope. -/
theorem keeps_new_confined (hS : S.Fits) (hgoal : goal ≠ .ground)
    (hgiven : ∀ J ∈ given, J.size = S.atoms.size) :
    (confined S goal given).Keeps S e (.new goal given) where
  goal_eq := rfl
  given_eq := rfl
  phase := (Generator.ensures_start hS hgoal hgiven).weaken fun _ _ hs ↦ hs.confinedTo

/-- Seen without pruners, a new generator offers all of its candidates. -/
theorem keeps_new_unpruned (hS : S.Fits) (hgoal : goal ≠ .ground)
    (hgiven : ∀ J ∈ given, J.size = S.atoms.size) :
    (unpruned S goal given).Keeps S e (.new goal given) where
  goal_eq := rfl
  given_eq := rfl
  phase := (Generator.ensures_start hS hgoal hgiven).weaken fun _ _ hs ↦ hs.offers hS

/-- And a new generator of the ground interpretation has not given it yet. -/
theorem keeps_new_ground (hS : S.Fits) (hG : S.framework.IsGround G) :
    (ground S G given).Keeps S e (.new .ground given) :=
  Generator.grounding_new hS hG given

/-! ### What sources give -/

/-- A confined source gives all models that are admissible. -/
theorem gives_confined (hS : S.Fits) (he : e.Sound) (hgoal : goal ≠ .ground)
    (hM : ∀ I ∈ M, I ∈ Generator.scope goal given ∧ S.framework.Admissible I) :
    (confined S goal given).Gives S e (Generator.candidates S goal given) M where
  prunes _ _ hg hqs := by
    refine Pruner.ensures_through_prune he (fun k s hs ↦ ?_) hg hqs
    exact NamedSession.ensures_onSession.2 ((hs.addBipolar hS k).weaken fun _ _ h ↦ h.1)
  opens g hg := by
    obtain ⟨s, hphase, hs⟩ := hg.exists_kept
    obtain ⟨R, hR, hsound, hcomplete⟩ := hs.exists_offers hS
    refine ⟨R, .offer ⟨⟨s, hphase, hR⟩, fun h ↦ ?_⟩, hsound, fun I hI ↦ ?_⟩
    · exact absurd (hg.goal_eq.symm.trans h) hgoal
    · exact hcomplete I (hM I hI).1 (hM I hI).2

/-- A source without pruners gives all candidates. -/
theorem gives_unpruned (hgoal : goal ≠ .ground) (hM : M ⊆ Generator.candidates S goal given) :
    (unpruned S goal given).Gives S e (Generator.candidates S goal given) M where
  prunes _ _ hg hqs := by
    subst hqs
    exact ensures_through_nil ⟨hg, rfl⟩
  opens g hg := by
    obtain ⟨s, hphase, hs⟩ := hg.exists_kept
    refine ⟨_, .offer ⟨⟨s, hphase, hs⟩, fun h ↦ ?_⟩, subset_rfl, hM⟩
    exact absurd (hg.goal_eq.symm.trans h) hgoal

/-- A ground source gives the ground interpretation, if it extends the given one. -/
theorem gives_ground (hS : S.Fits) (he : e.Sound) (hG : S.framework.IsGround G)
    (hgiven : ∀ J ∈ given, J.size = S.framework.size)
    (hD : ∀ I, I = G → (∀ J ∈ given, J ≤ I) → I ∈ D)
    (hM : ∀ I ∈ M, I = G ∧ ∀ J ∈ given, J ≤ I) : (ground S G given).Gives S e D M where
  prunes _ _ hg hqs := by
    refine Pruner.ensures_through_prune he (fun k s hs ↦ ?_) hg hqs
    obtain ⟨J, hJ⟩ := hs
    exact (hJ.ensures_addBipolar hS k).weaken fun _ _ h ↦ ⟨J, h⟩
  opens g hg := ⟨_, .ground hG hgiven hg.keeps, fun I hI ↦ hD I hI.1 hI.2, hM⟩

end Pipeline.Source

end Dialectical
