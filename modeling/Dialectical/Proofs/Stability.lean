import Dialectical.Proofs.Grounding
import Dialectical.Verifier.Stable

/-!
# Verifying stability

A two-valued model is stable if each argument it satisfies is derived from its rejected ones in
finitely many rounds. The verifier does not count rounds: it rejects the unsatisfied arguments, and
compares with the ground interpretation of what remains. Both are the same for two-valued models
(`Framework.TwoValuedModel.isGround_reject_iff`). One direction is an induction on the rounds. For
the other one, what is derived is, together with what is rejected, an interpretation that the
operator of the reduct does not enlarge, so the ground interpretation is below it.

In a reduct the rejected arguments have no occurrences, so the atoms of the framework serve for it
(`Setting.Fits.reject`).
-/

namespace Dialectical

open Act

namespace Framework

variable {F : Framework} {off : Nat → Bool} {I J G M : Interpretation} {a r : Nat} {b : Bool}

/-! ### Reducts -/

@[simp]
theorem size_reject (F : Framework) (off : Nat → Bool) : (F.reject off).size = F.size := rfl

theorem condition_reject (F : Framework) (off : Nat → Bool) (a : Nat) :
    (F.reject off).condition a = reductCondition off a (F.condition a) := by
  unfold condition reject
  rw [List.getElem?_mapIdx]
  cases F.conditions[a]? with
  | some c => rfl
  | none =>
    show Formula.bot = reductCondition off a .bot
    rw [reductCondition]
    split <;> rfl

/-- The condition of a rejected argument is false; the others are read with the rejected ones
false. -/
theorem eval_condition_reject (F : Framework) (off : Nat → Bool) (a : Nat) (v : Nat → Bool) :
    ((F.reject off).condition a).eval v =
      (!off a && (F.condition a).eval fun r ↦ !off r && v r) := by
  rw [condition_reject, reductCondition]
  cases hoff : off a with
  | true => rfl
  | false =>
    rw [if_neg Bool.false_ne_true, Formula.eval_substitute]
    refine Formula.eval_congr _ fun r _ ↦ ?_
    cases off r <;> rfl

/-- Where the rejected arguments are false anyway, conditions are as they were. -/
theorem eval_condition_reject_of_false {v : Nat → Bool} (ha : off a = false)
    (hv : ∀ r, off r = true → v r = false) :
    ((F.reject off).condition a).eval v = (F.condition a).eval v := by
  rw [eval_condition_reject, ha, Bool.not_false, Bool.true_and]
  refine Formula.eval_congr _ fun r _ ↦ ?_
  cases hr : off r with
  | true => rw [hv r hr, Bool.and_false]
  | false => rw [Bool.not_false, Bool.true_and]

/-- A reduct has no link that the framework lacks. -/
theorem links_reject_subset (F : Framework) (off : Nat → Bool) :
    (F.reject off).links ⊆ F.links := by
  rintro ⟨r, a⟩ h
  rw [link_mem_links, condition_reject] at h
  exact link_mem_links.2 (occurrences_reductCondition h)

/-! ### Two-valued models -/

/-- The two-valued models are the conflict-free interpretations that decide every argument. -/
theorem twoValuedModel_iff : F.TwoValuedModel I ↔ F.ConflictFree I ∧ I.isTwoValued := by
  constructor
  · exact fun h ↦ ⟨h.admissible.conflictFree, h.isTwoValued⟩
  · rintro ⟨hcf, hI⟩
    refine ⟨hcf.size_eq, hI, fun a b hab ↦ ?_⟩
    obtain ⟨v, hv, heval⟩ := hcf.allows a b hab
    rw [← eval_eq_of_isTwoValued hI hcf.size_eq hv, heval]

/-! ### Derivations -/

/-- What is derived stays derived in later rounds. -/
theorem Derived.mono {n m : Nat} (h : F.Derived M n a) (hnm : n ≤ m) : F.Derived M m a := by
  induction hnm with
  | refl => exact h
  | step _ ih => exact .inl ih

/-- And only what the model satisfies is derived. -/
theorem Derived.decides {n : Nat} (h : F.Derived M n a) : M.Decides a true := by
  induction n with
  | zero => exact h.elim
  | succ n ih => exact h.elim ih And.left

/-- All that is ever derived is derived after some number of rounds. -/
theorem exists_derived_round (F : Framework) (M : Interpretation) :
    ∃ n, ∀ a m, F.Derived M m a → F.Derived M n a := by
  -- for each argument of `M`, and then for all of them at once
  have hbelow : ∀ k, ∃ n, ∀ a < k, ∀ m, F.Derived M m a → F.Derived M n a := by
    intro k
    induction k with
    | zero => exact ⟨0, fun a ha ↦ absurd ha (Nat.not_lt_zero a)⟩
    | succ k ih =>
      obtain ⟨n, hn⟩ := ih
      by_cases hk : ∃ m, F.Derived M m k
      · obtain ⟨m, hm⟩ := hk
        refine ⟨max n m, fun a ha m' hm' ↦ ?_⟩
        rcases Nat.lt_succ_iff_lt_or_eq.1 ha with ha | rfl
        · exact (hn a ha m' hm').mono (le_max_left _ _)
        · exact hm.mono (le_max_right _ _)
      · refine ⟨n, fun a ha m hm ↦ ?_⟩
        rcases Nat.lt_succ_iff_lt_or_eq.1 ha with ha | rfl
        · exact hn a ha m hm
        · exact absurd ⟨m, hm⟩ hk
  obtain ⟨n, hn⟩ := hbelow M.size
  exact ⟨n, fun a m hm ↦ hn a hm.decides.lt_size m hm⟩

/-- What is rejected is false in the ground interpretation of the reduct. -/
theorem IsGround.decides_false (hG : (F.reject off).IsGround G) (ha : a < F.size)
    (hoff : off a = true) : G.Decides a false := by
  refine hG.decides (le_refl G) ha fun v _ ↦ ?_
  rw [eval_condition_reject, hoff]
  rfl

/-- What is derived holds in the ground interpretation of the reduct. -/
theorem IsGround.decides_of_derived (hM : M.size = F.size)
    (hG : (F.reject M.isUnsatisfied).IsGround G) {n : Nat} (h : F.Derived M n a) :
    G.Decides a true := by
  induction n generalizing a with
  | zero => exact h.elim
  | succ n ih =>
    rcases h with h | ⟨hab, h⟩
    · exact ih h
    · have ha : a < F.size := hM ▸ hab.lt_size
      refine hG.decides (le_refl G) ha fun v hv ↦ ?_
      rw [eval_condition_reject, hab.isUnsatisfied_eq_false, Bool.not_false, Bool.true_and]
      -- the rejected arguments are false here, and those derived before are true
      refine h _ (fun d hd ↦ ?_) fun d hd ↦ ?_
      · rw [Interpretation.isUnsatisfied_iff.2 hd, Bool.not_true, Bool.false_and]
      · rw [hd.decides.isUnsatisfied_eq_false, hv d true (ih hd), Bool.not_false, Bool.true_and]

/-- The rejected arguments and the derived ones. The operator of the reduct derives no more. -/
theorem TwoValuedModel.exists_derivable (h : F.TwoValuedModel M) :
    ∃ J, (F.reject M.isUnsatisfied).characteristic J ≤ J ∧
      ∀ a, J.Decides a true → ∃ n, F.Derived M n a := by
  have hp : ∀ a b c, (M.Decides a b ∧ (b = true → ∃ n, F.Derived M n a)) →
      (M.Decides a c ∧ (c = true → ∃ n, F.Derived M n a)) → b = c :=
    fun a b c hb hc ↦ hb.1.unique hc.1
  -- `J` is the model without the arguments that are satisfied but never derived
  obtain ⟨J, hsize, hJ⟩ := Interpretation.exists_decides_iff F.size hp
  have hJM : J ≤ M := ⟨hsize.trans h.size_eq.symm, fun a b hab ↦ ((hJ a b).1 hab).2.1⟩
  refine ⟨J, ⟨(size_characteristic ..).trans hsize.symm, fun a b hab ↦ ?_⟩,
    fun a ha ↦ ((hJ a true).1 ha).2.2 rfl⟩
  have ha : a < F.size := size_characteristic (F.reject M.isUnsatisfied) J ▸ hab.lt_size
  have hforced := (decides_characteristic (F := F.reject M.isUnsatisfied) ha).1 hab
  obtain ⟨c, hc⟩ := Interpretation.isTwoValued_iff.1 h.isTwoValued a (h.size_eq ▸ ha)
  cases c with
  | false =>
    -- a rejected argument can only be false
    have hb := hforced _ (J.completedBy_withDefault fun _ ↦ false)
    rw [eval_condition_reject, Interpretation.isUnsatisfied_iff.2 hc] at hb
    obtain rfl : false = b := hb
    exact (hJ a false).2 ⟨ha, hc, Bool.noConfusion⟩
  | true =>
    have heval : ∀ v : Nat → Bool, (∀ d, M.Decides d false → v d = false) →
        ((F.reject M.isUnsatisfied).condition a).eval v = (F.condition a).eval v := fun v hv ↦
      eval_condition_reject_of_false hc.isUnsatisfied_eq_false fun d hd ↦
        hv d (Interpretation.isUnsatisfied_iff.1 hd)
    cases b with
    | true =>
      refine (hJ a true).2 ⟨ha, hc, fun _ ↦ ?_⟩
      obtain ⟨n, hn⟩ := F.exists_derived_round M
      refine ⟨n + 1, .inr ⟨hc, fun v hfalse htrue ↦ ?_⟩⟩
      rw [← heval v hfalse]
      refine hforced v fun d c hd ↦ ?_
      obtain ⟨-, hdM, hderived⟩ := (hJ d c).1 hd
      cases c with
      | true =>
        obtain ⟨m, hm⟩ := hderived rfl
        exact htrue d (hn d m hm)
      | false => exact hfalse d hdM
    | false =>
      -- the model itself completes the derivable part and gives the condition the other value
      have hMv := M.completedBy_isSatisfied
      have := hforced _ (hMv.mono hJM)
      rw [heval _ fun d hd ↦ hMv d false hd, h.eval_eq a true hc] at this
      exact Bool.noConfusion this

/-- **Derivations and reducts.** A two-valued model satisfies only what is derived if and only if it
is the ground interpretation of its reduct. -/
theorem TwoValuedModel.isGround_reject_iff (h : F.TwoValuedModel M) :
    (F.reject M.isUnsatisfied).IsGround M ↔ ∀ a, M.Decides a true → ∃ n, F.Derived M n a := by
  constructor
  · intro hM a ha
    obtain ⟨J, hJ, hderived⟩ := h.exists_derivable
    exact hderived a (ha.mono (hM.le_of_characteristic_le hJ))
  · intro hderived
    obtain ⟨G, hG⟩ := (F.reject M.isUnsatisfied).exists_isGround
    have hle : M ≤ G := by
      refine ⟨h.size_eq.trans hG.size_eq.symm, fun a b hab ↦ ?_⟩
      cases b with
      | true =>
        obtain ⟨n, hn⟩ := hderived a hab
        exact hG.decides_of_derived h.size_eq hn
      | false =>
        exact hG.decides_false (h.size_eq ▸ hab.lt_size) (Interpretation.isUnsatisfied_iff.2 hab)
    exact Interpretation.eq_of_le_of_isTwoValued hle h.isTwoValued ▸ hG

/-- **Stable models** are the two-valued models that are the ground interpretation of their own
reduct. -/
theorem stable_iff : F.Stable M ↔
    F.TwoValuedModel M ∧ (F.reject M.isUnsatisfied).IsGround M := by
  constructor
  · exact fun h ↦ ⟨h.toTwoValuedModel, h.toTwoValuedModel.isGround_reject_iff.2 h.derived⟩
  · exact fun ⟨h, hM⟩ ↦ ⟨h, h.isGround_reject_iff.1 hM⟩

end Framework

/-! ### The verifier -/

/-- The atoms of a framework serve for its reducts. -/
theorem Setting.Fits.reject {S : Setting} (hS : S.Fits) (off : Nat → Bool) :
    Setting.Fits ⟨S.framework.reject off, S.atoms⟩ :=
  ⟨hS.size_eq, fun _ h ↦ hS.links (S.framework.links_reject_subset off h)⟩

/-- The prefix of the reduct rejects what the candidate rejects. -/
theorem Interpretation.isUnsatisfied_onlyUnsatisfied (I : Interpretation) :
    I.onlyUnsatisfied.isUnsatisfied = I.isUnsatisfied := by
  funext a
  rw [isUnsatisfied, isUnsatisfied, status?, status?, onlyUnsatisfied, List.getElem?_map]
  cases I.statuses[a]? with
  | none => rfl
  | some s => cases s <;> rfl

namespace StableVerifier

variable {S : Setting} {e : Engine} {I : Interpretation} {v : StableVerifier}

theorem ensures_prepare {E : StableVerifier → Prop} (hv : v.closed = false) :
    prepare.Ensures e v (fun _ v' ↦ v' = v) E := by
  rw [prepare, ensures_get_bind, hv]
  exact ensures_pure.2 rfl

/-- **The verifier accepts** the two-valued interpretations that are the ground interpretation of
their reduct. -/
theorem ensures_verify (hS : S.Fits) (he : e.Sound) (hv : v.closed = false)
    (hI : I.size = S.framework.size) : (verify S I).Ensures e v
      (fun b v' ↦ (b ↔ I.isTwoValued ∧ (S.framework.reject I.isUnsatisfied).IsGround I) ∧ v' = v)
      fun v' ↦ v' = v := by
  refine (ensures_prepare hv).bind ?_
  rintro - v rfl
  by_cases htwo : I.isTwoValued
  · have hreduct : S.framework.reduct I.onlyUnsatisfied =
        .ok (S.framework.reject I.isUnsatisfied) := by
      have hsize : I.onlyUnsatisfied.size = S.framework.size := by
        rw [Interpretation.size, Interpretation.onlyUnsatisfied, List.length_map]
        exact hI
      rw [Framework.reduct, if_pos hsize, I.isUnsatisfied_onlyUnsatisfied]
    obtain ⟨G, hG⟩ := (S.framework.reject I.isUnsatisfied).exists_isGround
    have hgiven : ∀ P ∈ some I, P.size = S.framework.size := by simpa using hI
    have hground : (ground ⟨S.framework.reject I.isUnsatisfied, S.atoms⟩ I).Ensures e v
        (fun result? v' ↦ (∀ K, result? = some K ↔ K = G ∧ ∀ P ∈ some I, P ≤ G) ∧ v' = v)
        fun v' ↦ v' = v := by
      refine ensures_bracket (A := fun g ↦ g = Generator.new .ground (some I))
        Generator.isQuiet_close (ensures_pure.2 rfl) ?_
      rintro _ rfl
      exact ((Generator.grounding_new (hS.reject _) hG (some I)).next (hS.reject _) he hG
        hgiven).mono (fun _ _ h ↦ ⟨h.2, rfl⟩) fun _ _ ↦ rfl
    show Ensures e (if I.isTwoValued then _ else _) v _ _
    rw [if_pos htwo]
    refine Ensures.ofExcept_bind hreduct (hground.bind ?_)
    rintro result? v ⟨hresult, rfl⟩
    refine ensures_pure.2 ⟨?_, rfl⟩
    rw [decide_eq_true_eq, hresult, and_iff_right htwo]
    constructor
    · rintro ⟨rfl, -⟩
      exact hG
    · intro h
      obtain rfl := h.unique hG
      exact ⟨rfl, by simp⟩
  · show Ensures e (if I.isTwoValued then _ else _) v _ _
    rw [if_neg htwo]
    exact ensures_pure.2 ⟨iff_of_false Bool.false_ne_true fun h ↦ htwo h.1, rfl⟩

end StableVerifier

end Dialectical
