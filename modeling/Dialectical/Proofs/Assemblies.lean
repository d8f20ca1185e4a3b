import Dialectical.Proofs.Listings
import Dialectical.Proofs.Engines

/-!
# Pipelines of any components

Components can be put together in any way, also so that the result is not what any semantics asks
for: pruners may drop candidates that the verifier would have accepted, and a naive verifier may
judge what was maximized before. Two things are true all the same, since they do not depend on which
candidates come up. There are no more candidates than interpretations, and no result comes twice.

The first is kept by every run. The second depends on the processors. A maximizer maps many
candidates to one result, and what keeps a second one of them from coming up is that everything
below the result is excluded. So with a maximizer, before or after the verifier, a result stands for
all that is below it, and without one it stands for itself only (`Pipeline.standsFor`).
-/

namespace Dialectical

open Act

variable {e : Engine} {S : Setting} {goal : Goal} {given : Option Interpretation}
  {early late : List Nat} {c? : Option Criterion}

/-! ### Maximizers -/

/-- New maximizers, with these bounds on enumeration. -/
def Processor.maximizers (ks : List Nat) : List Processor := ks.map fun k ↦ .maximizer { k }

namespace Pipeline

/-- What some number of maximizers does. -/
def Passage.maximizers (S : Setting) : List Nat → Passage
  | [] => .nothing
  | _ :: _ => .maximizing S

/-- New maximizers are ready, and there are some of them if a bound was given. -/
theorem Passage.ready_maximizers (S : Setting) (ks : List Nat) :
    (maximizers S ks).ready (Processor.maximizers ks) := by
  cases ks with
  | nil => rfl
  | cons k ks =>
    refine ⟨List.cons_ne_nil _ _, fun t ht ↦ ?_⟩
    obtain ⟨k', -, rfl⟩ := List.mem_map.1 ht
    exact Processor.isReady_new S k'

/-- **Any number of maximizers** keeps to the candidates: what is above a candidate and
conflict-free is one, too. -/
theorem Passage.serves_maximizers (hS : S.Fits) (he : e.Sound) (ks : List Nat) :
    (maximizers S ks).Serves S e (Generator.candidates S goal given) := by
  cases ks with
  | nil => exact serves_nothing
  | cons k ks =>
    refine serves_maximizing hS he (fun I hI ↦ Generator.size_eq_of_mem_candidates hS hI) ?_
    exact fun I hI J hJ ↦ ⟨hJ.conflictFree hI.1, Generator.mem_scope_of_le hI.2 hJ.le⟩

/-- Which candidates a result stands for, with these maximizers before and after the verifier. -/
def standsFor : (early late : List Nat) → Interpretation → Interpretation → Prop
  | [], [] => (· = ·)
  | _, _ => (· ≤ ·)

/-- **A result stands for the candidate it came from**, and no candidate that it stands for is left.
-/
theorem standsFor_of_takes {R R₁ R₂ : Set Interpretation} {I J K : Interpretation}
    (hearly : (Passage.maximizers S early).takes I (R \ {I}) J R₁)
    (hlate : (Passage.maximizers S late).takes J R₁ K R₂) :
    standsFor early late I K ∧ ∀ X ∈ R₂, ¬standsFor early late X K := by
  cases early with
  | nil =>
    obtain ⟨rfl, rfl⟩ := hearly
    cases late with
    | nil =>
      obtain ⟨rfl, rfl⟩ := hlate
      exact ⟨rfl, fun X hX ↦ hX.2⟩
    | cons k late =>
      obtain ⟨hK, rfl⟩ := hlate
      exact ⟨hK.le, fun X hX ↦ hX.2⟩
  | cons k early =>
    obtain ⟨hJ, rfl⟩ := hearly
    cases late with
    | nil =>
      obtain ⟨rfl, rfl⟩ := hlate
      exact ⟨hJ.le, fun X hX ↦ hX.2⟩
    | cons k' late =>
      obtain ⟨hK, rfl⟩ := hlate
      exact ⟨hJ.le.trans hK.le, fun X hX ↦ hX.2⟩

/-! ### Plans without models -/

/-- The plan of a pipeline of any components: nothing is said of which results there are. -/
def Plan.assembly (S : Setting) (e : Engine) (s : Source) (early late : List Nat)
    (c? : Option Criterion) (D : Set Interpretation) : Plan where
  source := s
  verifier := Verifier.IsReady S e c?
  early := .maximizers S early
  late := .maximizers S late
  candidates := D
  accepted := {I | S.framework.Fulfils c? I}
  models := ∅
  results := D
  leads := standsFor early late

/-- **Any assembly of components** keeps to this plan; as no models are asked for, none can be lost.
-/
theorem Plan.serves_assembly {s : Source} (hS : S.Fits) (he : e.Sound)
    (hs : s.Gives S e (Generator.candidates S goal given) ∅) (early late : List Nat)
    (c? : Option Criterion) :
    (assembly S e s early late c? (Generator.candidates S goal given)).Serves e S where
  fits := hS
  sound := he
  size_eq _ hI := Generator.size_eq_of_mem_candidates hS hI
  gives := hs
  verifies := Verifier.verifies hS he c? (fun _ hI ↦ hI.1) fun _ hJ ↦ absurd hJ (Set.notMem_empty _)
  early := Passage.serves_maximizers hS he early
  late := Passage.serves_maximizers hS he late
  yields R hR I hI J R₁ K R₂ hearly _ _ hlate hK := by
    obtain ⟨hstands, hnot⟩ := standsFor_of_takes hearly hlate
    exact ⟨hK, ⟨I, hI, hstands⟩, hnot, fun X _ hX ↦ absurd hX (Set.notMem_empty X)⟩
  rejects R _ I _ J R₁ _ _ X _ hX := absurd hX (Set.notMem_empty X)

/-- Whatever a generator is for, it can be the source of a pipeline, with any pruners. -/
theorem Source.exists_gives (hS : S.Fits) (he : e.Sound) (goal : Goal)
    (hgiven : ∀ J ∈ given, J.size = S.framework.size) (ks : List Nat) :
    ∃ s : Source, s.Keeps S e (.new goal given) ∧ s.pruners (Pruner.newAll ks) ∧
      s.Gives S e (Generator.candidates S goal given) ∅ := by
  have hatoms : ∀ J ∈ given, J.size = S.atoms.size :=
    fun J hJ ↦ (hgiven J hJ).trans hS.size_eq.symm
  by_cases hgoal : goal = .ground
  · subst hgoal
    obtain ⟨G, hG⟩ := S.framework.exists_isGround
    have hcf : S.framework.ConflictFree G := hG.complete.admissible.conflictFree
    refine ⟨_, keeps_new_ground hS hG, Pruner.isFaithful_newAll S ks,
      gives_ground hS he hG hgiven ?_ fun I hI ↦ absurd hI (Set.notMem_empty I)⟩
    exact fun I hI hle ↦ ⟨hI ▸ hcf, Goal.noConfusion, hle⟩
  · exact ⟨_, keeps_new_confined hS hgoal hatoms, Pruner.isFaithful_newAll S ks,
      gives_confined hS he hgoal fun I hI ↦ absurd hI (Set.notMem_empty I)⟩

/-! ### Assembled pipelines -/

/-- A new pipeline of any components: a generator, pruners and maximizers with some bounds on
enumeration, and a verifier or none. -/
def assembled (goal : Goal) (given : Option Interpretation) (pruners early late : List Nat)
    (c? : Option Criterion) : Pipeline where
  generator := .new goal given
  pruners := Pruner.newAll pruners
  early := Processor.maximizers early
  verifier := c?.map .new
  late := Processor.maximizers late

/-- Every assembled pipeline has a plan. -/
theorem exists_unopened_assembled (hS : S.Fits) (he : e.Sound)
    (hgiven : ∀ J ∈ given, J.size = S.framework.size) (goal : Goal) (ks early late : List Nat)
    (c? : Option Criterion) :
    ∃ P : Plan, P.Serves e S ∧ P.Unopened e S (assembled goal given ks early late c?) := by
  obtain ⟨s, hs, hpruners, hgives⟩ := Source.exists_gives hS he goal hgiven ks
  refine ⟨_, Plan.serves_assembly hS he hgives early late c?, ?_⟩
  exact ⟨hs, hpruners, Verifier.isReady_new hS e c?, Passage.ready_maximizers S early,
    Passage.ready_maximizers S late⟩

/-- **Pipelines of any components.** Whatever components a pipeline has, and whatever models the
engine chooses, each request for a result ends; the results are distinct; when there was none there
are no more; and there are at most as many candidates as interpretations. -/
theorem mapM_next_assembled (F : Framework) (goal : Goal) (given : Option Interpretation)
    (hgiven : ∀ J ∈ given, J.size = F.size) (ks early late : List Nat) (c? : Option Criterion)
    (e : Engine) (he : e.Correct) (m : Nat) (j : Journal) :
    ∃ (Is : List Interpretation) (n : Nat) (p : Pipeline) (j' : Journal),
      ((List.range m).mapM fun _ ↦ Pipeline.next (.of F)).run e
        (assembled goal given ks early late c?) j =
          ⟨.ok (Is.map some ++ List.replicate n none), p, j'⟩ ∧
      Is.Nodup ∧ p.candidates ≤ 3 ^ F.size := by
  have hS := Setting.fits_of F
  obtain ⟨P, hP, hp⟩ := exists_unopened_assembled hS he.sound hgiven goal ks early late c?
  have hdelivers : P.Delivers e (.of F) ∅ [] (assembled goal given ks early late c?) :=
    hp.delivers rfl rfl
  obtain ⟨_, p, j', hrun, Is, n, rfl, hIs⟩ :=
    (hdelivers.mapM_next hP (Set.empty_subset _)).exists_ok he.decisive j
  exact ⟨Is, n, p, j', hrun, hIs.nodup, Nat.le_of_lt_succ hIs.candidates_lt⟩

/-- The case of two arguments that exclude each other: the two-valued models are maximized before
and after a naive verifier. -/
theorem mapM_next_assembled_mutualExclusion :
    (∀ J ∈ some (⟨[.satisfied, .undecided]⟩ : Interpretation),
      J.size = Framework.mutualExclusion.size) ∧ Engine.exhaustive.Correct ∧
    ∃ (Is : List Interpretation) (n : Nat) (p : Pipeline) (j' : Journal),
      ((List.range 3).mapM fun _ ↦ Pipeline.next (.of .mutualExclusion)).run .exhaustive
        (assembled .twoValued (some ⟨[.satisfied, .undecided]⟩) [2] [0] [1] (some .naive)) .empty =
          ⟨.ok (Is.map some ++ List.replicate n none), p, j'⟩ ∧
      Is.Nodup ∧ p.candidates ≤ 3 ^ 2 := by
  have he := Engine.exhaustive_correct
  have hgiven := Framework.size_eq_of_satisfied_undecided
  exact ⟨hgiven, he, mapM_next_assembled _ _ _ hgiven [2] [0] [1] _ _ he 3 .empty⟩

end Pipeline

end Dialectical
