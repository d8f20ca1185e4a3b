import Dialectical.Proofs.Engines
import Dialectical.Proofs.WorstCases
import Mathlib.Data.List.Basic

/-!
# What the worst cases leave

The worst-case clauses exclude some conflict-free interpretations, and this module says which. An
argument with few dependent parents keeps its value only if it has it under all completions, as in
an admissible interpretation. An argument with more of them keeps it if there are values of its
undecided dependent parents that protect it, whatever its other undecided parents are
(`Setting.Withstands`).

That one valuation of the link atoms stands for all completions is monotonicity. Moving an undecided
parent away from its worst case never takes the value away from the condition
(`Framework.Improves`), so the parents with a typed link can be moved one after the other, from what
the argument sees to any completion (`Framework.eval_eq_of_improves`). The parents of different
arguments do not disturb each other, since a parent has one link atom per child.
-/

namespace Dialectical

open Act Clause

/-! ### Improving a condition -/

namespace Framework

variable {F : Framework} {a r : Nat} {b c : Bool} {u w : Nat → Bool}

/-- Giving this value to a parent never takes the value of the condition away. -/
def Improves (F : Framework) (r a : Nat) (b c : Bool) : Prop :=
  ∀ v : Nat → Bool, (F.condition a).eval v = b → (F.condition a).eval (Function.update v r c) = b

/-- Only valuations that give the parent the other value have to be looked at. -/
theorem improves_of_update (h : ∀ v : Nat → Bool,
    (F.condition a).eval (Function.update v r (!c)) = b →
      (F.condition a).eval (Function.update v r c) = b) : F.Improves r a b c := by
  intro v hv
  rcases Bool.eq_or_eq_not (v r) c with rfl | hvr
  · rwa [Function.update_eq_self]
  · refine h v ?_
    rwa [← hvr, Function.update_eq_self]

/-- The value that a supporting parent has helps the child to have it, too. -/
theorem Supports.improves (h : F.Supports r a) (b : Bool) : F.Improves r a b b := by
  refine improves_of_update fun v hv ↦ ?_
  cases b with
  | true => exact h v hv
  | false =>
    by_contra hne
    have htrue := h v (Bool.eq_true_of_not_eq_false hne)
    exact Bool.noConfusion (htrue.symm.trans hv)

/-- The value that an attacking parent has helps the child to have the other one. -/
theorem Attacks.improves (h : F.Attacks r a) (b : Bool) : F.Improves r a b (!b) := by
  refine improves_of_update fun v hv ↦ ?_
  cases b with
  | true => exact h v hv
  | false =>
    by_contra hne
    have htrue := h v (Bool.eq_true_of_not_eq_false hne)
    exact Bool.noConfusion (htrue.symm.trans hv)

/-- **Any value but the worst one** of a parent with a typed link helps. -/
theorem improves_of_worst?_ne (htype : F.typeOf ⟨r, a⟩ ≠ .dependent)
    (hne : (F.typeOf ⟨r, a⟩).worst? b ≠ some c) : F.Improves r a b c := by
  have hsupports := isSupporting_typeOf (F := F) (r := r) (a := a)
  have hattacks := isAttacking_typeOf (F := F) (r := r) (a := a)
  generalize F.typeOf ⟨r, a⟩ = type at htype hne hsupports hattacks
  cases type with
  | supporting =>
    have hc : (!b) ≠ c := fun h ↦ hne (congrArg some h)
    obtain rfl : b = c := Bool.not_not_eq.1 hc
    exact (hsupports.1 rfl).improves b
  | attacking =>
    have hc : b ≠ c := fun h ↦ hne (congrArg some h)
    obtain rfl : (!b) = c := Bool.not_eq.2 hc
    exact (hattacks.1 rfl).improves b
  | redundant =>
    rcases Bool.eq_or_eq_not c b with rfl | rfl
    · exact (hsupports.1 rfl).improves c
    · exact (hattacks.1 rfl).improves b
  | dependent => exact absurd rfl htype

/-- **Improving one parent after the other.** A condition keeps its value when parents are changed
to values that help, and the others stay as they are. -/
theorem eval_eq_of_improves (h : ∀ r ∈ F.parents a, u r = w r ∨ F.Improves r a b (w r))
    (hu : (F.condition a).eval u = b) : (F.condition a).eval w = b := by
  -- the parents in a list are changed, those at the end of the list first
  have hchanged : ∀ rs : List Nat, (∀ r ∈ rs, u r = w r ∨ F.Improves r a b (w r)) →
      (F.condition a).eval (fun r ↦ if r ∈ rs then w r else u r) = b := by
    intro rs
    induction rs with
    | nil => simpa using hu
    | cons r rs ih =>
      intro hrs
      obtain ⟨hr, hrs⟩ := List.forall_mem_cons.1 hrs
      have hupdate : (fun d ↦ if d ∈ r :: rs then w d else u d) =
          Function.update (fun d ↦ if d ∈ rs then w d else u d) r (w r) := by
        funext d
        by_cases hd : d = r
        · subst hd
          simp
        · rw [Function.update_of_ne hd]
          simp [hd]
      rw [hupdate]
      rcases hr with heq | himproves
      · rw [Function.update_eq_self_iff.2 (by simp [heq])]
        exact ih hrs
      · exact himproves _ (ih hrs)
  rw [← hchanged _ h]
  exact Formula.eval_congr _ fun r hr ↦ by rw [if_pos (mem_parents.2 hr)]

end Framework

/-! ### Values of parents -/

/-- Every choice of values for the arguments of a list is listed. -/
theorem map_mem_valuesOver (w : Nat → Bool) (as : List Nat) :
    as.map (fun r ↦ (r, w r)) ∈ valuesOver as := by
  rw [mem_valuesOver, List.map_map]
  exact List.map_id as

/-- Arguments that are not listed are given no value. -/
theorem lookup_map_eq_none {as : List Nat} {r : Nat} (w : Nat → Bool) (hr : r ∉ as) :
    (as.map fun r ↦ (r, w r)).lookup r = none := by
  rw [List.lookup_eq_none_iff]
  intro p hp
  obtain ⟨d, hd, rfl⟩ := List.mem_map.1 hp
  have hne : r ≠ d := fun heq ↦ hr (heq ▸ hd)
  simpa using hne

namespace Setting

variable {S : Setting} {I : Interpretation} {a r k : Nat} {b : Bool} {v : Variable → Bool}

/-! ### What is left -/

/-- The values that some completion gives to the dependent parents of an argument force this value
of its condition, whatever the other parents are. -/
def ForcesForSome (S : Setting) (I : Interpretation) (a : Nat) (b : Bool) : Prop :=
  ∃ w, I.CompletedBy w ∧ ∀ u, I.CompletedBy u → (∀ r ∈ S.dependents a, u r = w r) →
    (S.framework.condition a).eval u = b

/-- What all completions force is forced for some values of the dependent parents, in fact for all
of them. -/
theorem ForcesForSome.of_forces (h : S.framework.Forces I a b) : S.ForcesForSome I a b :=
  ⟨_, I.completedBy_withDefault fun _ ↦ false, fun u hu _ ↦ h u hu⟩

/-- The interpretation withstands the worst cases: an argument that is decided has its value under
all completions if it has few dependent parents, and under all completions with certain values of
its dependent parents if it has more. -/
structure Withstands (S : Setting) (k : Nat) (I : Interpretation) : Prop where
  size_eq : I.size = S.framework.size
  decided : ∀ a b, I.Decides a b →
    ((S.dependents a).length ≤ k ∧ S.framework.Forces I a b) ∨
      (k < (S.dependents a).length ∧ S.ForcesForSome I a b)

/-- The weaker of the two demands holds of every decided argument, whatever the bound is. -/
theorem Withstands.forcesForSome (h : S.Withstands k I) (hb : I.Decides a b) :
    S.ForcesForSome I a b := by
  rcases h.decided a b hb with ⟨-, hforces⟩ | ⟨-, hsome⟩
  · exact .of_forces hforces
  · exact hsome

/-- An argument within the bound has its value under all completions. -/
theorem Withstands.forces (h : S.Withstands k I) (hk : (S.dependents a).length ≤ k)
    (hb : I.Decides a b) : S.framework.Forces I a b := by
  rcases h.decided a b hb with ⟨-, hforces⟩ | ⟨hlt, -⟩
  · exact hforces
  · exact absurd hk (Nat.not_le.2 hlt)

/-- What is admissible withstands the worst cases, whatever the bound on enumeration is. -/
theorem Withstands.of_admissible (h : S.framework.Admissible I) (k : Nat) : S.Withstands k I := by
  refine ⟨h.size_eq, fun a b hb ↦ ?_⟩
  have hforces := h.forces a b hb
  rcases Nat.lt_or_ge k (S.dependents a).length with hlt | hle
  · exact .inr ⟨hlt, .of_forces hforces⟩
  · exact .inl ⟨hle, hforces⟩

/-- Nothing else does if no argument has too many dependent parents. -/
theorem Withstands.admissible (h : S.Withstands k I)
    (hk : ∀ a < S.framework.size, (S.dependents a).length ≤ k) : S.framework.Admissible I :=
  ⟨h.size_eq, fun a _ hb ↦ h.forces (hk a (h.size_eq ▸ hb.lt_size)) hb⟩

/-! ### Models withstand the worst cases -/

/-- **From one valuation to all completions.** If an argument sees its undecided parents in their
worst cases, its condition keeps its value when the parents with a typed link are changed to any
completion and the dependent ones stay as they are. -/
theorem Shows.eval_eq_of_worstCases (hS : S.Fits) (hv : S.Shows v I)
    (hworst : ∀ r ∈ S.framework.parents a, AllHold
      (S.worstCase r a (S.atoms.linkAtom r a) (S.framework.typeOf ⟨r, a⟩)) v)
    (hb : I.Decides a b) {u w : Nat → Bool} (hw : I.CompletedBy w)
    (hdependent : ∀ r ∈ S.dependents a, u r = w r)
    (hseen : ∀ r ∈ S.framework.parents a, r ∉ S.dependents a → u r = S.seen v a r)
    (hu : (S.framework.condition a).eval u = b) : (S.framework.condition a).eval w = b := by
  refine Framework.eval_eq_of_improves (fun r hr ↦ ?_) hu
  by_cases hdep : r ∈ S.dependents a
  · exact .inl (hdependent r hdep)
  · have htype : S.framework.typeOf ⟨r, a⟩ ≠ .dependent := fun h ↦ hdep (mem_dependents.2 ⟨hr, h⟩)
    have hrlt : r < I.size := hv.encodes.size_eq ▸ (hS.lt_size_of_mem_parents hr).1
    rw [hseen r hr hdep]
    rcases Interpretation.decides_or_undecided hrlt with ⟨c, hc⟩ | hundecided
    · exact .inl ((hv.seesDecided a r hr c hc).trans (hw r c hc).symm)
    · -- the parent is seen in its worst case, so any other value helps
      have hcase := (hS.allHold_worstCase_iff hr hv.encodes (hv.seesDecided a)).1 (hworst r hr)
      by_cases hworse : (S.framework.typeOf ⟨r, a⟩).worst? b = some (w r)
      · exact .inl (hcase b (w r) hb hundecided hworse)
      · exact .inr (Framework.improves_of_worst?_ne htype hworse)

/-- An argument with too many dependent parents has its value as long as these have the values that
it sees. -/
theorem WorstCasesAt.forcesForSome (h : S.WorstCasesAt k a v) (hS : S.Fits) (hv : S.Shows v I)
    (hb : I.Decides a b) : S.ForcesForSome I a b := by
  refine ⟨I.withDefault (S.seen v a), I.completedBy_withDefault _, fun w hw hagree ↦ ?_⟩
  refine hv.eval_eq_of_worstCases hS h.1 hb hw (fun r hr ↦ ?_) (fun _ _ _ ↦ rfl)
    (hv.verdict_eq a b hb)
  rw [hagree r hr]
  exact (Interpretation.withDefault_eq (hv.seesDecided a r (mem_dependents.1 hr).1)).symm

/-- An argument with few dependent parents has its value for all their values, as these are
enumerated. -/
theorem WorstCasesAt.forces (h : S.WorstCasesAt k a v) (hS : S.Fits) (hv : S.Shows v I)
    (hk : (S.dependents a).length ≤ k) (hb : I.Decides a b) : S.framework.Forces I a b := by
  intro w hw
  have ha : a < S.atoms.size := hv.encodes.size_eq ▸ hb.lt_size
  let values := (S.dependents a).map fun r ↦ (r, w r)
  have hvalues : values ∈ valuesOver (S.dependents a) := map_mem_valuesOver w _
  have hdependent : ∀ r ∈ S.dependents a,
      (values.lookup r).getD (S.seen v a r) = w r := by
    intro r hr
    rw [List.lookup_graph w hr, Option.getD_some]
  have hseen : ∀ r ∈ S.framework.parents a, r ∉ S.dependents a →
      (values.lookup r).getD (S.seen v a r) = S.seen v a r := by
    intro r _ hr
    rw [lookup_map_eq_none w hr, Option.getD_none]
  refine hv.eval_eq_of_worstCases hS h.1 hb hw hdependent hseen ?_
  by_cases hnil : S.dependents a = []
  · -- nothing is enumerated, and nothing has to be
    have heq : (fun r ↦ (values.lookup r).getD (S.seen v a r)) = S.seen v a := by
      funext r
      rw [lookup_map_eq_none w (hnil ▸ List.not_mem_nil), Option.getD_none]
    rw [heq]
    exact hv.verdict_eq a b hb
  · refine h.2 hnil hk values hvalues (fun p hp ↦ ?_) b ((hv.encodes.decides_iff a b ha).2 hb)
    -- no parent is decided otherwise in a completion
    have hplt := hS.lt_size_of_mem_valuesOver hvalues hp
    obtain ⟨r, -, rfl⟩ := List.mem_map.1 hp
    refine Bool.eq_false_iff.2 fun hatom ↦ ?_
    have hother := hw r _ ((hv.encodes.decides_iff r _ hplt).1 hatom)
    exact Bool.not_ne_self _ hother.symm

/-! ### What withstands the worst cases has a model -/

/-- A completion in which the argument has its value although its undecided parents with a typed
link are in their worst cases. -/
theorem ForcesForSome.exists_worst (h : S.ForcesForSome I a b) :
    ∃ w, I.CompletedBy w ∧ (S.framework.condition a).eval w = b ∧
      ∀ r c, I.status? r = some .undecided →
        (S.framework.typeOf ⟨r, a⟩).worst? b = some c → w r = c := by
  obtain ⟨w, hw, hforces⟩ := h
  let worst : Nat → Bool := fun r ↦ ((S.framework.typeOf ⟨r, a⟩).worst? b).getD (w r)
  refine ⟨I.withDefault worst, I.completedBy_withDefault worst, ?_, fun r c hu hc ↦ ?_⟩
  · refine hforces _ (I.completedBy_withDefault worst) fun r hr ↦ ?_
    -- a dependent link has no worst case
    have hdefault : worst r = w r := by
      simp only [worst, (mem_dependents.1 hr).2, LinkType.worst?, Option.getD_none]
    rw [Interpretation.withDefault_eq fun c hc ↦ hdefault.trans (hw r c hc), hdefault]
  · have hno : ∀ d, ¬I.Decides r d := fun d ↦ Interpretation.not_decides_of_undecided hu
    rw [Interpretation.withDefault_of_not_decides hno]
    simp only [worst, hc, Option.getD_some]

/-- What withstands the worst cases has a model, in which each argument sees a completion of its
own. -/
theorem Withstands.exists_shows (h : S.Withstands k I) (hS : S.Fits) :
    ∃ v, S.Shows v I ∧ ∀ a ∈ S.framework.arguments, S.WorstCasesAt k a v := by
  obtain ⟨L, hL, hdecided⟩ := Interpretation.exists_completions fun a b hb ↦
    (h.forcesForSome hb).exists_worst
  have hv := hS.shows_valuation h.size_eq hL fun a b hb ↦ (hdecided a b hb).1
  refine ⟨S.atoms.valuation I L, hv, fun a ha ↦ ⟨fun r hr ↦ ?_, fun _ hk values hvalues ↦ ?_⟩⟩
  · rw [hS.allHold_worstCase_iff hr hv.encodes (hv.seesDecided a)]
    intro b c hb hu hc
    rw [seen, Atoms.valuation_linkAtom (hS.link_mem (Framework.mem_parents.1 hr))]
    exact (hdecided a b hb).2 r c hu hc
  · have halt : a < S.atoms.size := hS.size_eq ▸ Framework.mem_arguments.1 ha
    exact hv.enumeratedAt (fun b hb ↦ h.forces hk hb) halt
      fun p hp ↦ hS.lt_size_of_mem_valuesOver hvalues hp

/-- **What the worst cases leave.** -/
theorem Fits.exists_worstCasesAt_iff (hS : S.Fits) :
    (∃ v, (S.ShowsIn Set.univ v ∧ ∀ a ∈ S.framework.arguments, S.WorstCasesAt k a v) ∧
      S.atoms.Encodes v I) ↔ S.Withstands k I := by
  constructor
  · rintro ⟨v, ⟨⟨J, -, hv⟩, hworst⟩, hI⟩
    obtain rfl := hv.encodes.unique hI
    refine ⟨hI.size_eq.trans hS.size_eq, fun a b hb ↦ ?_⟩
    have hat := hworst a (Framework.mem_arguments.2 (hS.size_eq ▸ hI.size_eq ▸ hb.lt_size))
    rcases Nat.lt_or_ge k (S.dependents a).length with hlt | hle
    · exact .inr ⟨hlt, hat.forcesForSome hS hv hb⟩
    · exact .inl ⟨hle, hat.forces hS hv hle hb⟩
  · intro h
    obtain ⟨v, hv, hworst⟩ := h.exists_shows hS
    exact ⟨v, ⟨⟨I, trivial, hv⟩, hworst⟩, hv.encodes⟩

/-! ### The clauses of a session -/

/-- Which interpretation a valuation stands for is a matter of the atoms alone. -/
theorem localBelow_encodes (S : Setting) (I : Interpretation) :
    LocalBelow S.atoms.count fun v ↦ S.atoms.Encodes v I := by
  intro v w hvw h
  refine ⟨h.size_eq, fun a b ha ↦ ?_⟩
  rw [← hvw _ (Atoms.atom_lt_count ha)]
  exact h.decides_iff a b ha

/-- The encoding of conflict-freeness and the worst cases, in a session that has no clauses yet. -/
theorem Fits.ensures_addBipolar (hS : S.Fits) {e : Engine} {s : Session} {E : Session → Prop}
    (hclauses : s.solver.clauses = []) (hknown : S.atoms.count ≤ s.solver.known) (k : Nat) :
    Ensures e (do
        Session.perform S.conflictFree
        S.addBipolar S.framework.allTypes k) s
      (fun _ s' ↦ Mean S.atoms.count s'.solver.clauses fun v ↦
        S.ShowsIn Set.univ v ∧ ∀ a ∈ S.framework.arguments, S.WorstCasesAt k a v) E := by
  obtain ⟨counts, hcounts⟩ := hS.imposes_bipolar k
  obtain ⟨m, D, hD, hmean⟩ := hS.imposes_conflictFree.gives _ hknown
  obtain ⟨m', D', hD', hmean'⟩ := hcounts.gives m (hknown.trans hD.le)
  refine (Session.ensures_perform hD).bind ?_
  rintro _ s₁ ⟨-, rfl⟩
  refine (Session.ensures_perform hD').bind ?_
  rintro _ s₂ ⟨rfl, rfl⟩
  refine ensures_log.2 ?_
  have happend := (hmean.mono hknown).append hD.span_le hmean' (hknown.trans hD.le)
    hcounts.localBelow
  refine happend.of_allHold_iff fun v ↦ ?_
  simp only [Session.told, hclauses, List.append_nil, allHold_append, allHold_reverse]
  exact and_comm

end Setting

/-! ### The models of the clauses -/

variable {σ : Type}

/-- **The models of the worst-case clauses.** With the types that are computed for the links, the
clauses of conflict-freeness and of the worst cases have a model for exactly those interpretations
that withstand the worst cases. So all admissible interpretations are kept whatever is enumerated,
and if no argument has too many dependent parents no others are. -/
theorem Setting.exists_model_iff_withstands (F : Framework) (k : Nat) (e : Engine) (he : e.Correct)
    (t : σ) (j : Journal) :
    ∃ j', F.linkTypes.run e t j = ⟨.ok F.allTypes, t, j'⟩ ∧
      ∀ s : Session, s.solver.clauses = [] → (Atoms.of F).count ≤ s.solver.known →
        ∀ i, ∃ s' i',
          Act.run (do
            Session.perform (Setting.of F).conflictFree
            (Setting.of F).addBipolar F.allTypes k) e s i = ⟨.ok (), s', i'⟩ ∧
          (∀ I, (∃ v, AllHold s'.solver.clauses v ∧ (Atoms.of F).Encodes v I) ↔
            (Setting.of F).Withstands k I) ∧
          (∀ I, F.Admissible I → ∃ v, AllHold s'.solver.clauses v ∧ (Atoms.of F).Encodes v I) ∧
          ((∀ a < F.size, ((Setting.of F).dependents a).length ≤ k) →
            ∀ I v, AllHold s'.solver.clauses v → (Atoms.of F).Encodes v I → F.Admissible I) := by
  have hS := Setting.fits_of F
  obtain ⟨_, _, j', hrun, rfl, rfl⟩ :=
    (Framework.ensures_linkTypes (F := F) he.sound).exists_ok he.decisive j
  refine ⟨j', hrun, fun s hclauses hknown i ↦ ?_⟩
  obtain ⟨_, s', i', hrun', hmean⟩ := (hS.ensures_addBipolar (E := fun _ ↦ True) hclauses hknown
    k).exists_ok he.decisive i
  have hiff : ∀ I, (∃ v, AllHold s'.solver.clauses v ∧ (Atoms.of F).Encodes v I) ↔
      (Setting.of F).Withstands k I := fun I ↦
    (hmean.exists_iff (localBelow_encodes _ I)).trans hS.exists_worstCasesAt_iff
  refine ⟨s', i', hrun', hiff, fun I hadm ↦ ?_, fun hk I v hv hI ↦ ?_⟩
  · exact (hiff I).2 (.of_admissible hadm k)
  · exact ((hiff I).1 ⟨v, hv, hI⟩).admissible hk

/-- Two arguments that support themselves, and one that is accepted if they agree. -/
def Framework.agreement : Framework where
  labels := ⟨["a", "b", "c"], by decide⟩
  conditions := [.leaf 0, .leaf 1, .binary .iff (.leaf 0) (.leaf 1)]
  length_conditions := rfl
  lt_size_of_mem := by simp [Formula.occurrences, LabelSet.size]

namespace Framework

/-- Whether two arguments agree is neither supported nor attacked by one of them. -/
theorem typeOf_agreement {r : Nat} (hr : r = 0 ∨ r = 1) :
    agreement.typeOf ⟨r, 2⟩ = .dependent := by
  have hsupports : ¬agreement.Supports r 2 := fun h ↦ by
    rcases hr with rfl | rfl <;> exact absurd (h (fun _ ↦ false) rfl) (by decide)
  have hattacks : ¬agreement.Attacks r 2 := fun h ↦ by
    rcases hr with rfl | rfl <;> exact absurd (h (fun _ ↦ true) rfl) (by decide)
  exact typeOf_eq (iff_of_false Bool.false_ne_true hsupports)
    (iff_of_false Bool.false_ne_true hattacks)

/-- So both parents of the third argument are dependent. -/
theorem dependents_agreement : (Setting.of agreement).dependents 2 = [0, 1] := by
  have hparents : agreement.parents 2 = [0, 1] := by decide
  show (agreement.parents 2).filter _ = [0, 1]
  rw [hparents]
  refine List.filter_eq_self.2 fun r hr ↦ decide_eq_true (typeOf_agreement ?_)
  simpa using hr

/-- No argument has more than these two. -/
theorem length_dependents_agreement_le :
    ∀ a < agreement.size, ((Setting.of agreement).dependents a).length ≤ 2 := by
  intro a ha
  have hparents : ∀ a < agreement.size, (agreement.parents a).length ≤ 2 := by decide
  exact (List.length_filter_le _ _).trans (hparents a ha)

/-- The agreement of two arguments withstands the worst cases if these are not enumerated. -/
theorem withstands_agreement :
    (Setting.of agreement).Withstands 1 ⟨[.undecided, .undecided, .satisfied]⟩ := by
  refine ⟨rfl, fun a b hb ↦ ?_⟩
  have hdecided : ∀ a < 3, ∀ b, Interpretation.Decides ⟨[.undecided, .undecided, .satisfied]⟩ a b →
      a = 2 ∧ b = true := by decide
  obtain ⟨rfl, rfl⟩ := hdecided a hb.lt_size b hb
  refine .inr ⟨by rw [dependents_agreement]; decide, fun _ ↦ true, ?_, fun u _ hagree ↦ ?_⟩
  · exact fun d c hc ↦ (hdecided d hc.lt_size c hc).2.symm
  · rw [dependents_agreement] at hagree
    show (u 0 == u 1) = true
    rw [hagree 0 (by simp), hagree 1 (by simp)]
    rfl

/-- It is not admissible, since the two may come to differ. -/
theorem not_admissible_agreement :
    ¬agreement.Admissible ⟨[.undecided, .undecided, .satisfied]⟩ := by
  intro h
  have hnot : ¬agreement.Forces ⟨[.undecided, .undecided, .satisfied]⟩ 2 true := by decide
  exact hnot (h.forces 2 true rfl)

end Framework

/-- The agreement of two arguments has a model with one of them enumerated at most, and none with
two. -/
theorem Setting.exists_model_iff_withstands_agreement :
    Engine.exhaustive.Correct ∧
    (∀ a < Framework.agreement.size,
      ((Setting.of .agreement).dependents a).length ≤ 2) ∧
    ∃ s : Session, s.solver.clauses = [] ∧ (Atoms.of .agreement).count ≤ s.solver.known ∧
      ∃ s₁ i₁ s₂ i₂,
        Act.run (do
          Session.perform (Setting.of .agreement).conflictFree
          (Setting.of .agreement).addBipolar Framework.agreement.allTypes 1) .exhaustive s .empty =
            ⟨.ok (), s₁, i₁⟩ ∧
        Act.run (do
          Session.perform (Setting.of .agreement).conflictFree
          (Setting.of .agreement).addBipolar Framework.agreement.allTypes 2) .exhaustive s .empty =
            ⟨.ok (), s₂, i₂⟩ ∧
        (∃ v, AllHold s₁.solver.clauses v ∧
          (Atoms.of .agreement).Encodes v ⟨[.undecided, .undecided, .satisfied]⟩) ∧
        ¬∃ v, AllHold s₂.solver.clauses v ∧
          (Atoms.of .agreement).Encodes v ⟨[.undecided, .undecided, .satisfied]⟩ := by
  have he := Engine.exhaustive_correct
  have hk := Framework.length_dependents_agreement_le
  have hknown : (Atoms.of .agreement).count ≤ 10 := by decide
  obtain ⟨-, -, hfew⟩ := exists_model_iff_withstands .agreement 1 _ he () .empty
  obtain ⟨-, -, hmany⟩ := exists_model_iff_withstands .agreement 2 _ he () .empty
  refine ⟨he, hk, ⟨⟨0, 10, 0, [], []⟩, []⟩, rfl, hknown, ?_⟩
  obtain ⟨s₁, i₁, hrun₁, hiff, -⟩ := hfew ⟨⟨0, 10, 0, [], []⟩, []⟩ rfl hknown .empty
  obtain ⟨s₂, i₂, hrun₂, -, -, hadmissible⟩ :=
    hmany ⟨⟨0, 10, 0, [], []⟩, []⟩ rfl hknown .empty
  refine ⟨s₁, i₁, s₂, i₂, hrun₁, hrun₂, (hiff _).2 Framework.withstands_agreement, ?_⟩
  rintro ⟨v, hv, hI⟩
  exact Framework.not_admissible_agreement (hadmissible hk _ v hv hI)

end Dialectical
