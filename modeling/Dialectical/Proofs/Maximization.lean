import Dialectical.Proofs.Attacks
import Dialectical.Proofs.Pruners

/-!
# Maximization

The maximizer climbs from an interpretation to larger admissible ones. Its session always offers
only what is strictly above the current interpretation, and everything admissible there; each model
either becomes the current interpretation or is excluded. So the offer gets smaller with each step,
and when it is empty nothing admissible is above the current interpretation (`IsSummit`).

The climb is on a session of its own. It is not confined to what extends the interpretation that is
given to the generator, and need not be: everything above a candidate extends it anyway.

The candidate need not be admissible. If nothing admissible is above it, it is its own summit. So
climbs can be put one after another (`Framework.IsSummit.trans`), and several maximizers do what one
does (`Processor.ensures_through_apply`).
-/

namespace Dialectical

open Act

variable {e : Engine} {S : Setting} {I J : Interpretation} {R : Set Interpretation}

/-- Where a climb from `I` may end: it got to something admissible unless it did not move, and
nothing admissible is strictly above. -/
structure Framework.IsSummit (F : Framework) (I J : Interpretation) : Prop where
  le : I ≤ J
  admissible : I ≠ J → F.Admissible J
  not_lt : ∀ K, F.Admissible K → ¬J < K

/-- A climb from an admissible interpretation ends with a preferred one. -/
theorem Framework.IsSummit.preferred {F : Framework} (h : F.IsSummit I J) (hI : F.Admissible I) :
    F.Preferred J := by
  refine preferred_iff.2 ⟨?_, h.not_lt⟩
  by_cases heq : I = J
  · exact heq ▸ hI
  · exact h.admissible heq

/-- A climb goes up if it can, and then it ends with a preferred interpretation. -/
theorem Framework.IsSummit.preferred_of_lt {F : Framework} {K : Interpretation}
    (h : F.IsSummit I J) (hK : F.Admissible K) (hlt : I < K) : F.Preferred J ∧ I < J := by
  have hne : I ≠ J := fun heq ↦ h.not_lt K hK (heq ▸ hlt)
  exact ⟨preferred_iff.2 ⟨h.admissible hne, h.not_lt⟩, lt_of_le_of_ne h.le hne⟩

/-- A climb stays where it is if nothing admissible is above. -/
theorem Framework.IsSummit.eq_of_forall_not_lt {F : Framework} (h : F.IsSummit I J)
    (hI : ∀ K, F.Admissible K → ¬I < K) : J = I := by
  by_contra hne
  exact hI J (h.admissible (Ne.symm hne)) (lt_of_le_of_ne h.le (Ne.symm hne))

/-- What is conflict-free is not given up in a climb. -/
theorem Framework.IsSummit.conflictFree {F : Framework} (h : F.IsSummit I J)
    (hI : F.ConflictFree I) : F.ConflictFree J := by
  by_cases heq : I = J
  · exact heq ▸ hI
  · exact (h.admissible heq).conflictFree

/-- A climb from a summit stays there or goes on from something admissible. -/
theorem Framework.IsSummit.trans {F : Framework} {K : Interpretation} (h : F.IsSummit I J)
    (h' : F.IsSummit J K) : F.IsSummit I K where
  le := h.le.trans h'.le
  admissible hne := by
    by_cases heq : J = K
    · exact heq ▸ h.admissible (heq ▸ hne)
    · exact h'.admissible heq
  not_lt := h'.not_lt

/-- A climb may go on from something admissible. -/
theorem Framework.IsSummit.of_lt {F : Framework} {K : Interpretation} (h : F.IsSummit J K)
    (hlt : I < J) (hJ : F.Admissible J) : F.IsSummit I K where
  le := hlt.le.trans h.le
  admissible _ := by
    by_cases heq : J = K
    · exact heq ▸ hJ
    · exact h.admissible heq
  not_lt := h.not_lt

/-- A session offers the continuations of a climb from `I`: nothing but what is strictly above `I`,
and everything admissible there. -/
structure Ascent (S : Setting) (I : Interpretation) (R : Set Interpretation) : Prop where
  lt : ∀ J ∈ R, I < J
  mem : ∀ J, S.framework.Admissible J → I < J → J ∈ R

/-- Going on from something in the offer. -/
theorem Ascent.extend (h : Ascent S I R) (hJ : J ∈ R) : Ascent S J (R ∩ {K | J < K}) :=
  ⟨fun _ hK ↦ hK.2, fun K hK hlt ↦ ⟨h.mem K hK ((h.lt J hJ).trans hlt), hlt⟩⟩

/-- Excluding what is not admissible. -/
theorem Ascent.exclude (h : Ascent S I R) (hJ : ¬S.framework.Admissible J) :
    Ascent S I (R ∩ {K | K ≠ J}) :=
  ⟨fun K hK ↦ h.lt K hK.1, fun K hK hlt ↦ ⟨h.mem K hK hlt, fun heq ↦ hJ (heq ▸ hK)⟩⟩

namespace Maximizer

variable {s : Session} {v : AdmissibleVerifier} {m : Maximizer} {n steps : Nat}

/-- **A climb** ends at a summit. -/
theorem ensures_climb (hS : S.Fits) (he : e.Sound) (hv : v.closed = false)
    (hs : s.Offers S.atoms R) (hR : Ascent S I R) (hn : R.ncard < n) :
    (climb S n steps I).Ensures e (s, v)
      (fun a q ↦ S.framework.IsSummit I a.2 ∧ q.2 = v) fun q ↦ q.2 = v := by
  induction n generalizing s R steps I with
  | zero => exact absurd hn (Nat.not_lt_zero _)
  | succ n ih =>
    rw [climb]
    refine hs.witness_bind he (fun _ ↦ rfl) (fun hnone s' hs' ↦ ?_) fun xs hxs s' hs' ↦ ?_
    · refine ensures_pure.2 ⟨⟨le_refl I, fun hne ↦ absurd rfl hne, fun K hK hlt ↦ ?_⟩, rfl⟩
      exact Set.notMem_empty K (hnone ▸ hR.mem K hK hlt)
    · have hJ : (S.atoms.interpretation xs).size = S.atoms.size := S.atoms.size_interpretation xs
      dsimp only
      generalize S.atoms.interpretation xs = J at hxs hJ ⊢
      refine AdmissibleVerifier.ensures_verify_bind hS he hv (hJ.trans hS.size_eq) rfl fun b hb ↦ ?_
      cases b with
      | true =>
        -- the climb goes on from `J`, and `J` is not above itself
        have hadm := hb.1 rfl
        have hcard := hs'.ncard_inter_lt hxs (B := {K | J < K}) (lt_irrefl J)
        rw [if_pos rfl]
        refine (hs'.perform (Atoms.selects_extending hJ)).first_bind fun _ s'' hs'' ↦ ?_
        refine (ih hs'' (hR.extend hxs) (by omega)).weaken fun a q h ↦ ⟨?_, h.2⟩
        exact h.1.of_lt (hR.lt J hxs) hadm
      | false =>
        -- the climb stays where it is, and `J` is taken out
        have hcard := hs'.ncard_inter_lt hxs (B := {K | K ≠ J}) fun hne ↦ hne rfl
        rw [if_neg Bool.false_ne_true]
        refine (hs'.add (Atoms.selects_differs hJ)).first_bind fun _ s'' hs'' ↦ ?_
        exact ih hs'' (hR.exclude fun hadm ↦ Bool.noConfusion (hb.2 hadm)) (by omega)

/-- The maximizer can be used: the types that it keeps, if it keeps them, are those of the links,
and it is not closed. -/
structure IsReady (S : Setting) (m : Maximizer) : Prop where
  types_eq : ∀ types ∈ m.types, types = S.framework.allTypes
  closed_eq : m.admissible.closed = false

/-- What is above the start, as far as it may be admissible, is left in the session of a climb. -/
theorem ensures_prepare (hS : S.Fits) (he : e.Sound) (hm : m.IsReady S)
    (hs : s.Means S.atoms.count fun _ ↦ True) (hI : I.size = S.atoms.size) :
    (prepare S I).Ensures e (s, m)
      (fun _ p ↦ p.1.ConfinedTo S {J | I < J} ∧ p.2.IsReady S) fun p ↦ p.2.IsReady S := by
  refine (hs.perform hS.imposes_conflictFree).first_bind ?_
  rintro - s₁ ⟨-, hs₁⟩
  have hs₁ : s₁.ConfinedTo S Set.univ := (hs₁.congr fun _ ↦ and_iff_right trivial).confinedTo
  have htypes : (Act.on Maximizer.types (fun m types ↦ { m with types })
      (keptLinkTypes S.framework)).Ensures e m
      (fun types m' ↦ types = S.framework.allTypes ∧ m'.IsReady S) fun m' ↦ m'.IsReady S := by
    refine ensures_on.2 ((ensures_keptLinkTypes he hm.types_eq).mono ?_ ?_)
    · exact fun _ types? h ↦ ⟨h.1, h.2, hm.closed_eq⟩
    · exact fun types? h ↦ ⟨h, hm.closed_eq⟩
  refine htypes.second_bind ?_
  rintro _ m' ⟨rfl, hm'⟩
  rw [ensures_get_bind]
  refine ensures_first.2 ((hs₁.addBipolar hS m'.k).bind fun _ s₂ hs₂ ↦ ?_)
  refine (hs₂.1.perform (Atoms.selects_extending hI)).weaken fun _ s₃ hs₃ ↦ ⟨?_, hm'⟩
  rwa [Set.univ_inter] at hs₃

/-- **The maximizer** gives a summit above the candidate. -/
theorem ensures_process (hS : S.Fits) (he : e.Sound) (hm : m.IsReady S)
    (hI : I.size = S.atoms.size) : (process S I).Ensures e m
      (fun J m' ↦ S.framework.IsSummit I J ∧ m'.IsReady S) fun m' ↦ m'.IsReady S := by
  have hclimb : (Act.bracketBeside (Session.acquire S.atoms.count) Session.release (do
      prepare S I
      Act.on (fun p ↦ (p.1, p.2.admissible))
        (fun p q ↦ (q.1, { p.2 with admissible := q.2 })) (climb S S.budget 0 I))).Ensures e m
      (fun a m' ↦ S.framework.IsSummit I a.2 ∧ m'.IsReady S) fun m' ↦ m'.IsReady S := by
    refine ensures_bracketBeside Session.isQuiet_release Session.ensures_acquire fun s hs ↦ ?_
    refine (ensures_prepare hS he hm hs hI).bind ?_
    rintro - ⟨s', m'⟩ ⟨hs', hm'⟩
    obtain ⟨R, hR, hsound, hcomplete⟩ := hs'.exists_offers hS
    have hascent : Ascent S I R := ⟨fun J hJ ↦ (hsound J hJ).2, fun J hJ hlt ↦ hcomplete J hlt hJ⟩
    have hbudget := Setting.ncard_lt_budget hR.size_eq
    refine ensures_on.2 ((ensures_climb hS he hm'.closed_eq hR hascent hbudget).mono ?_ ?_)
    · rintro a ⟨t, v⟩ ⟨ha, rfl⟩
      exact ⟨ha, hm'⟩
    · rintro ⟨t, v⟩ rfl
      exact hm'
  refine hclimb.bind ?_
  rintro ⟨steps, J⟩ m' hJ
  exact Ensures.log_bind (ensures_pure.2 hJ)

end Maximizer

/-! ### Maximizers in a pipeline -/

namespace Processor

variable {g : Generator} {t : Processor} {ts : List Processor}

/-- The processor is a maximizer that can be used. -/
def IsReady (S : Setting) (t : Processor) : Prop := ∃ m : Maximizer, t = .maximizer m ∧ m.IsReady S

theorem isReady_new (S : Setting) (k : Nat) : IsReady S (.maximizer { k }) :=
  ⟨_, rfl, by simp, rfl⟩

/-- **A maximizer** replaces a candidate by a summit above it, and takes everything below this out
of the offer. -/
theorem ensures_apply (hS : S.Fits) (he : e.Sound) (hg : g.Offers S R) (ht : t.IsReady S)
    (hI : I.size = S.atoms.size) :
    (apply S I).Ensures e (g, t)
      (fun J p ↦ S.framework.IsSummit I J ∧ p.1.Offers S (R ∩ {K | ¬K ≤ J}) ∧ p.2.IsReady S)
      fun p ↦ p.1.Offers S R ∧ p.2.IsReady S := by
  obtain ⟨m, rfl, hm⟩ := ht
  have hprocess : (process S I).Ensures e (.maximizer m)
      (fun J t' ↦ S.framework.IsSummit I J ∧ ∃ m' : Maximizer, t' = .maximizer m' ∧ m'.IsReady S)
      fun t' ↦ t'.IsReady S := by
    rw [process, ensures_get_bind]
    refine ensures_into.2 ((Maximizer.ensures_process hS he hm hI).mono ?_ ?_)
    · exact fun J m' h ↦ ⟨h.1, m', rfl, h.2⟩
    · exact fun m' h ↦ ⟨m', rfl, h⟩
  refine (hprocess.weakenFault fun t' ht' ↦ ⟨hg, ht'⟩).second_bind fun J t' h ↦ ?_
  obtain ⟨hJ, m', rfl, hm'⟩ := h
  have hJsize : J.size = S.atoms.size := hJ.le.1.symm.trans hI
  rw [ensures_get_bind]
  refine ((hg.perform (Atoms.selects_exceeds hJsize)).weakenFault ?_).first_bind ?_
  · exact fun g' hg' ↦ ⟨hg', m', rfl, hm'⟩
  · exact fun _ g' hg' ↦ ensures_pure.2 ⟨hJ, hg', m', rfl, hm'⟩

/-- **Several maximizers** do what one of them does. -/
theorem ensures_through_apply (hS : S.Fits) (he : e.Sound) (hg : g.Offers S R) (hne : ts ≠ [])
    (hts : ∀ t ∈ ts, t.IsReady S) (hI : I.size = S.atoms.size) :
    (Act.through (apply S) I).Ensures e (g, ts)
      (fun J p ↦ S.framework.IsSummit I J ∧ p.1.Offers S (R ∩ {K | ¬K ≤ J}) ∧
        p.2 ≠ [] ∧ ∀ t ∈ p.2, t.IsReady S)
      fun p ↦ (∃ R' ⊆ R, p.1.Offers S R') ∧ p.2 ≠ [] ∧ ∀ t ∈ p.2, t.IsReady S := by
  induction ts generalizing I R g with
  | nil => exact absurd rfl hne
  | cons t ts ih =>
    obtain ⟨ht, hts⟩ := List.forall_mem_cons.1 hts
    refine ensures_through_cons ((ensures_apply hS he hg ht hI).weakenFault fun p hp ↦ ?_) ?_
    · exact ⟨⟨R, subset_rfl, hp.1⟩, List.cons_ne_nil _ _, List.forall_mem_cons.2 ⟨hp.2, hts⟩⟩
    intro J p hp
    obtain ⟨hJ, hp, ht'⟩ := hp
    by_cases hnil : ts = []
    · subst hnil
      exact ensures_through_nil ⟨hJ, hp, List.cons_ne_nil _ _, by simpa using ht'⟩
    · refine (ih hp hnil hts (hJ.le.1.symm.trans hI)).mono (fun K q hq ↦ ?_) fun q hq ↦ ?_
      · obtain ⟨hK, hq, -, hts'⟩ := hq
        -- what is below the first summit is below the second one
        have hsub : {X | ¬X ≤ K} ⊆ {X | ¬X ≤ J} := fun X hX hle ↦ hX (hle.trans hK.le)
        have hrest : R ∩ {X | ¬X ≤ J} ∩ {X | ¬X ≤ K} = R ∩ {X | ¬X ≤ K} := by
          rw [Set.inter_assoc, Set.inter_eq_right.2 hsub]
        exact ⟨hJ.trans hK, hrest ▸ hq, List.cons_ne_nil _ _, List.forall_mem_cons.2 ⟨ht', hts'⟩⟩
      · obtain ⟨⟨R', hR', hq⟩, -, hts'⟩ := hq
        exact ⟨⟨R', hR'.trans Set.inter_subset_left, hq⟩, List.cons_ne_nil _ _,
          List.forall_mem_cons.2 ⟨ht', hts'⟩⟩

end Processor

namespace Pipeline.Passage

variable {D : Set Interpretation}

/-- Without processors a candidate stays as it is. -/
def nothing : Passage where
  ready := (· = [])
  takes I R J R' := J = I ∧ R' = R

/-- With maximizers a candidate becomes a summit, and everything below is taken out of the offer. -/
def maximizing (S : Setting) : Passage where
  ready ts := ts ≠ [] ∧ ∀ t ∈ ts, t.IsReady S
  takes I R J R' := S.framework.IsSummit I J ∧ R' = R ∩ {K | ¬K ≤ J}

/-- No processors keep to that. -/
theorem serves_nothing : nothing.Serves S e D := by
  intro g ts R I hg hts hI
  obtain rfl : ts = [] := hts
  exact ensures_through_nil ⟨⟨hI, R, subset_rfl, hg, rfl, rfl⟩, rfl⟩

/-- **Maximizers keep to that**, if every summit above a candidate is a candidate. -/
theorem serves_maximizing (hS : S.Fits) (he : e.Sound) (hsize : ∀ I ∈ D, I.size = S.atoms.size)
    (hD : ∀ I ∈ D, ∀ J, S.framework.IsSummit I J → J ∈ D) : (maximizing S).Serves S e D := by
  intro g ts R I hg hts hI
  refine (Processor.ensures_through_apply hS he hg hts.1 hts.2 (hsize I hI)).weaken fun J q hq ↦ ?_
  obtain ⟨hJ, hq, hts'⟩ := hq
  exact ⟨⟨hD I hI J hJ, _, Set.inter_subset_left, hq, hJ, rfl⟩, hts'⟩

end Pipeline.Passage

end Dialectical
