import Dialectical.Proofs.Generators
import Dialectical.Verifier.Naive

/-!
# Verifying naivety in one session

Whether a conflict-free interpretation is naive is one question to a session that serves for all
candidates. What a verification adds to this session are clauses *guarded* by a fresh variable, the
toggle: each of them has the negated toggle as a literal. Making the toggle false satisfies all of
them, so they say nothing of the atoms (`Session.Means.guarded`), and assuming the toggle brings the
guarded clause into force for one question only (`Session.Means.solvable_guarded`). Verifications
are therefore independent of each other, in whatever order the candidates come and also after the
solver gave up (`NaiveVerifier.ensures_verify`).

The question is about the **whole** framework. It is not confined to what extends the interpretation
that is given to the generator, and need not be: everything above a candidate extends it anyway.
-/

namespace Dialectical

open Act Clause

/-! ### Guarded clauses -/

/-- Clauses that are guarded by the first variable beyond the known ones restrict nothing. -/
theorem Clause.mean_guarded {n : Nat} {D : List Clause} (hD : ∀ d ∈ D, Variable.neg n ∈ d) :
    Mean n D fun _ ↦ True := by
  refine ⟨fun _ _ ↦ trivial, fun v _ ↦ ⟨Function.update v n false, ?_, ?_⟩⟩
  · exact agreeBelow_update n v false
  · intro d hd
    have hguard : (Variable.neg n).holds (Function.update v n false) := by simp [Literal.holds]
    exact holds_iff.2 ⟨_, hD d hd, hguard⟩

namespace Session

variable {e : Engine} {s : Session} {k : Nat} {x : Variable} {c : Clause} {D : List Clause}
  {ls : List Literal} {P : (Variable → Bool) → Prop}

/-- `s'` is the session `s` after it was told the clause `c` guarded by the fresh variable `x`, and
maybe asked since. -/
structure Guards (s : Session) (x : Variable) (c : Clause) (s' : Session) : Prop where
  var_eq : x = s.solver.known
  clauses_eq : s'.solver.clauses = (x.neg :: c) :: s.solver.clauses
  known_lt : x < s'.solver.known

/-- A question leaves the guard where it is. -/
theorem Guards.asked {s' t : Session} (h : s.Guards x c s') (ht : s'.Asked t) : s.Guards x c t :=
  ⟨h.var_eq, ht.solver.clauses_eq.trans h.clauses_eq,
    Nat.lt_of_lt_of_le h.known_lt ht.solver.known_le⟩

/-- **Guarded clauses do not change the meaning**, whatever they are besides. -/
theorem Means.guarded {m : Nat} (h : s.Means k P) (hx : x = s.solver.known)
    (hm : s.solver.known ≤ m) (hD : ∀ d ∈ D, x.neg ∈ d ∧ span d ≤ m) : (s.told m D).Means k P := by
  subst hx
  have hmean := mean_guarded fun d hd ↦ (hD d hd).1
  have htold := h.told hm (fun d hd ↦ (hD d hd).2) hmean (localBelow_const k True)
  exact htold.congr fun v ↦ and_iff_left trivial

/-- So a guarded clause leaves the meaning of a session as it was. -/
theorem Guards.means {s' : Session} (hg : s.Guards x c s') (h : s.Means k P)
    (hc : span (x.neg :: c) ≤ s'.solver.known) (hpending : s'.pending = []) : s'.Means k P := by
  have hguarded : ∀ d ∈ [x.neg :: c], x.neg ∈ d ∧ span d ≤ s'.solver.known := by
    simpa using hc
  have hle : s.solver.known ≤ s'.solver.known := hg.var_eq ▸ hg.known_lt.le
  exact (h.guarded hg.var_eq hle hguarded).asked ⟨⟨hg.clauses_eq, le_refl _⟩, hpending⟩

/-- Making the guard false for good. -/
theorem Guards.ensures_retract {s' : Session} {E : Session → Prop} (hg : s.Guards x c s')
    (h : s.Means k P) (hc : span (x.neg :: c) ≤ s'.solver.known) (hpending : s'.pending = []) :
    (add [x.neg]).Ensures e s' (fun _ t ↦ t.Means k P) E := by
  have hguarded : ∀ d ∈ [x.neg :: c, [x.neg]], x.neg ∈ d ∧ span d ≤ s'.solver.known := by
    simpa using ⟨hc, span_le_iff.2 (by simpa using hg.known_lt)⟩
  have hle : s.solver.known ≤ s'.solver.known := hg.var_eq ▸ hg.known_lt.le
  refine ensures_add.weaken ?_
  rintro - _ rfl
  refine (h.guarded hg.var_eq hle hguarded).asked ⟨⟨?_, le_max_left _ _⟩, hpending⟩
  show [x.neg] :: s'.solver.clauses = _
  rw [hg.clauses_eq]
  rfl

/-- **Assuming the guard** asks for the guarded clause. -/
theorem Means.solvable_guarded (h : s.Means k P) (hx : x = s.solver.known) (hc : span c ≤ k)
    (hls : span ls ≤ k) :
    Solvable ((x.neg :: c) :: s.solver.clauses) (ls ++ [x.pos]) ↔
      ∃ v, P v ∧ Clause.holds v c ∧ ∀ l ∈ ls, l.holds v := by
  constructor
  · rintro ⟨v, hv, hassumed⟩
    obtain ⟨hguarded, hclauses⟩ := allHold_cons.1 hv
    have hguard : x.pos.holds v := hassumed _ (by simp)
    refine ⟨v, h.mean.sound v hclauses, ?_, fun l hl ↦ hassumed l (by simp [hl])⟩
    rcases holds_cons.1 hguarded with hneg | hc
    · rw [Literal.holds, beq_iff_eq] at hguard hneg
      exact Bool.noConfusion (hguard.symm.trans hneg)
    · exact hc
  · rintro ⟨v, hP, hv, hassumed⟩
    obtain ⟨w, hvw, hw⟩ := h.mean.complete v hP
    -- the guard is not one of the variables that the clauses speak of
    have hguard := agreeBelow_update s.solver.known w true
    have hvw' := hvw.trans (hguard.mono h.le_known)
    subst hx
    refine ⟨Function.update w s.solver.known true, allHold_cons.2 ⟨?_, ?_⟩, fun l hl ↦ ?_⟩
    · exact holds_cons.2 (.inr (localBelow_holds hc hvw' hv))
    · exact localBelow_allHold h.span_le hguard hw
    · rcases List.mem_append.1 hl with hl | hl
      · rw [← Literal.holds_congr hvw' (span_le_iff.1 hls l hl)]
        exact hassumed l hl
      · rw [List.mem_singleton.1 hl]
        simp [Literal.holds]

end Session

/-! ### Larger conflict-free interpretations -/

namespace Setting

variable {S : Setting} {I J : Interpretation} {v : Variable → Bool}

/-- The clause that decides an argument more, and the literals that fix what is decided, speak of
the atoms only. -/
theorem span_undecided_le (S : Setting) (hI : I.size = S.atoms.size) :
    span (I.undecided.flatMap S.atoms.decided) ≤ S.atoms.count := by
  refine span_le_iff.2 fun l hl ↦ ?_
  obtain ⟨a, ha, hla⟩ := List.mem_flatMap.1 hl
  obtain ⟨b, hb⟩ := Atoms.var_of_mem_decided hla
  have hlt := Interpretation.lt_size_of_status? (Interpretation.mem_undecided.1 ha)
  rw [hb]
  exact Atoms.atom_lt_count (hI ▸ hlt)

theorem span_fixing_le (S : Setting) (hI : I.size = S.atoms.size) :
    span (S.atoms.fixing I) ≤ S.atoms.count := by
  refine span_le_iff.2 fun l hl ↦ ?_
  have hunit := (Atoms.selects_fixing hI).span_le [l] (List.mem_map_of_mem hl)
  exact Nat.lt_of_lt_of_le (span_le_iff.1 hunit l (by simp)) S.atoms.two_mul_size_le_count

/-- The models that decide an argument more, without changing what is decided, are the strictly
larger conflict-free interpretations. -/
theorem Fits.exists_larger_iff (hS : S.Fits) (hI : I.size = S.atoms.size) :
    (∃ v, S.ShowsIn Set.univ v ∧ Clause.holds v (I.undecided.flatMap S.atoms.decided) ∧
      ∀ l ∈ S.atoms.fixing I, l.holds v) ↔ ∃ J, I < J ∧ S.framework.ConflictFree J := by
  constructor
  · rintro ⟨v, ⟨J, -, hv⟩, hdecided, hfixing⟩
    have hlt : I < J := Interpretation.lt_iff_le_and_decides.2
      ⟨(hv.encodes.holds_fixing hI).1 hfixing, (hv.encodes.holds_undecided hI).1 hdecided⟩
    exact ⟨J, hlt, hS.exists_shows_iff.1 ⟨v, hv⟩⟩
  · rintro ⟨J, hlt, hJ⟩
    obtain ⟨v, hv⟩ := hS.exists_shows_iff.2 hJ
    obtain ⟨hle, hdecides⟩ := Interpretation.lt_iff_le_and_decides.1 hlt
    exact ⟨v, ⟨J, trivial, hv⟩, (hv.encodes.holds_undecided hI).2 hdecides,
      (hv.encodes.holds_fixing hI).2 hle⟩

end Setting

/-! ### The verifier -/

namespace NaiveVerifier

variable {α : Type} {S : Setting} {e : Engine} {I : Interpretation} {s : Session}
  {w : NaiveVerifier}

/-- **One question**, which leaves the meaning of the session as it is. It is answered for an
interpretation of the framework, and does no harm if it is about another one. -/
theorem ensures_isMaximal (hS : S.Fits) (he : e.Sound)
    (hs : s.Means S.atoms.count (S.ShowsIn Set.univ)) :
    (isMaximal S I).Ensures e s
      (fun b s' ↦ (I.size = S.atoms.size → (b ↔ ∀ J, I < J → ¬S.framework.ConflictFree J)) ∧
        s'.Means S.atoms.count (S.ShowsIn Set.univ))
      fun s' ↦ s'.Means S.atoms.count (S.ShowsIn Set.univ) := by
  have hspan := S.span_undecided_le (I := I)
  have hfixing := S.span_fixing_le (I := I)
  have hlarger := hS.exists_larger_iff (I := I)
  rw [isMaximal]
  generalize I.undecided.flatMap S.atoms.decided = c at hspan hlarger ⊢
  generalize S.atoms.fixing I = ls at hfixing hlarger ⊢
  refine Session.ensures_fresh.bind ?_
  rintro x _ ⟨hx, rfl⟩
  refine Session.ensures_add.bind ?_
  rintro - s₁ hs₁
  have hguards : s.Guards x c s₁ := by
    rw [hs₁]
    exact ⟨hx, rfl, lt_max_of_lt_left (Nat.lt_succ_self x)⟩
  have hc : span (x.neg :: c) ≤ s₁.solver.known := by
    rw [hs₁]
    exact le_max_right _ _
  have hpending : s₁.pending = [] := by
    rw [hs₁]
    exact hs.pending
  rw [Session.assume, ensures_modify_bind]
  -- the guard is not withdrawn if the solver gives up, which does no harm
  refine ((Session.ensures_satisfiable he).weakenFault fun s₂ hs₂ ↦ ?_).bind ?_
  · exact (hguards.asked ⟨hs₂.solver, hs₂.pending⟩).means hs (hc.trans hs₂.solver.known_le)
      hs₂.pending
  · intro b s₂ hb
    obtain ⟨hb, hs₂⟩ := hb
    have hguards₂ := hguards.asked ⟨hs₂.solver, hs₂.pending⟩
    refine (hguards₂.ensures_retract hs (hc.trans hs₂.solver.known_le) hs₂.pending).bind
      fun _ t ht ↦ ensures_pure.2 ⟨fun hI ↦ ?_, ht⟩
    rw [hpending, List.nil_append, hguards.clauses_eq,
      hs.solvable_guarded hx (hspan hI) (hfixing hI), hlarger hI] at hb
    show (!b) = true ↔ _
    rw [Bool.not_eq_true', ← Bool.not_eq_true, hb]
    push Not
    rfl

/-- The session of the verifier says that a conflict-free interpretation is shown, or will say so
when it is opened. -/
def IsReady (S : Setting) (e : Engine) (w : NaiveVerifier) : Prop :=
  w.phase.Keeps e (start S) fun s ↦ s.Means S.atoms.count (S.ShowsIn Set.univ)

/-- What the verifier keeps after a verification: that it failed, and then something larger is
conflict-free. -/
def Remembers (F : Framework) (I : Interpretation) (w : NaiveVerifier) : Prop :=
  w.failed = true → ∃ J, I < J ∧ F.ConflictFree J

/-- A new verifier will have such a session when it is opened. -/
theorem isReady_new (hS : S.Fits) (e : Engine) : IsReady S e {} := by
  have hstart : (start S).Ensures e ()
      (fun s _ ↦ s.Means S.atoms.count (S.ShowsIn Set.univ)) fun _ ↦ False := by
    have hhandOver : (Act.handOver (Session.acquire S.atoms.count) Session.release
        (Session.perform S.conflictFree)).Ensures e ()
        (fun p _ ↦ p.2.Means S.atoms.count (S.ShowsIn Set.univ)) fun _ ↦ False := by
      refine ensures_handOver Session.isQuiet_release Session.ensures_acquire fun s hs ↦ ?_
      refine (hs.perform hS.imposes_conflictFree).weaken fun _ s' hs' ↦ ?_
      exact hs'.2.congr fun v ↦ and_iff_right trivial
    exact hhandOver.bind fun _ _ hs ↦ ensures_pure.2 hs
  exact hstart

/-- What is done with the session of the verifier. -/
theorem IsReady.use {x : Act Session α} {Φ : α → Prop} (hw : w.IsReady S e)
    (hx : ∀ s : Session, s.Means S.atoms.count (S.ShowsIn Set.univ) → x.Ensures e s
      (fun a s' ↦ Φ a ∧ s'.Means S.atoms.count (S.ShowsIn Set.univ))
      fun s' ↦ s'.Means S.atoms.count (S.ShowsIn Set.univ)) :
    (NaiveVerifier.use S x).Ensures e w (fun a w' ↦ Φ a ∧ w'.IsReady S e)
      fun w' ↦ w'.IsReady S e :=
  ensures_on.2 (Lifecycle.Keeps.use hw hx)

/-- Preparing opens the session. -/
theorem ensures_prepare (hw : w.IsReady S e) :
    (prepare S).Ensures e w (fun _ w' ↦ w'.IsReady S e) fun w' ↦ w'.IsReady S e := by
  have huse := hw.use (x := pure ()) (Φ := fun _ ↦ True) fun s hs ↦ ensures_pure.2 ⟨trivial, hs⟩
  exact huse.weaken fun _ _ h ↦ h.2

/-- **The verifier rejects exactly what something conflict-free is strictly larger than**, and keeps
whether it did. -/
theorem ensures_verify_failed (hS : S.Fits) (he : e.Sound) (hw : w.IsReady S e)
    (hI : I.size = S.atoms.size) : (verify S I).Ensures e w
      (fun b w' ↦ (b ↔ ∀ J, I < J → ¬S.framework.ConflictFree J) ∧ w'.IsReady S e ∧
        w'.Remembers S.framework I ∧ w'.failed = !b)
      fun w' ↦ w'.IsReady S e := by
  have hmaximal := hw.use (Φ := fun b ↦ b = true ↔ ∀ J, I < J → ¬S.framework.ConflictFree J)
    fun s hs ↦ (ensures_isMaximal hS he hs).weaken fun _ _ h ↦ ⟨h.1 hI, h.2⟩
  refine hmaximal.bind ?_
  rintro b w' ⟨hb, hw'⟩
  rw [ensures_modify_bind]
  refine ensures_pure.2 ⟨hb, hw', fun hfailed ↦ ?_, rfl⟩
  have hnot : ¬b = true := by simpa using hfailed
  rw [hb] at hnot
  push Not at hnot
  exact hnot

/-- What a pipeline needs of a verification. -/
theorem ensures_verify (hS : S.Fits) (he : e.Sound) (hw : w.IsReady S e)
    (hI : I.size = S.atoms.size) : (verify S I).Ensures e w
      (fun b w' ↦ (b ↔ ∀ J, I < J → ¬S.framework.ConflictFree J) ∧ w'.IsReady S e ∧
        w'.Remembers S.framework I)
      fun w' ↦ w'.IsReady S e :=
  (ensures_verify_failed hS he hw hI).weaken fun _ _ ⟨hb, hw', hr, _⟩ ↦ ⟨hb, hw', hr⟩

/-- **What the verifier excludes** is what is below the interpretation, after a rejection. -/
theorem ensures_prune_selects {E : NaiveVerifier → Prop} (hw : w.IsReady S e)
    (hI : I.size = S.atoms.size) : (prune S I).Ensures e w
      (fun cs w' ↦ w'.IsReady S e ∧ S.atoms.Selects cs {J | w.failed = true → ¬J ≤ I}) E := by
  rw [prune, ensures_get_bind]
  by_cases hfailed : w.failed = true
  · rw [if_pos hfailed, ensures_modify_bind]
    refine ensures_pure.2 ⟨hw, ?_⟩
    simpa [hfailed] using Atoms.selects_exceeds hI
  · rw [if_neg hfailed]
    refine ensures_pure.2 ⟨hw, ?_⟩
    simpa [hfailed] using Atoms.selects_nil S.atoms

/-- What is below a rejected interpretation is below something larger, too. -/
theorem Remembers.not_le {F : Framework} {J : Interpretation} (h : w.Remembers F I)
    (hJ : F.Naive J) (hfailed : w.failed = true) : ¬J ≤ I := by
  intro hle
  obtain ⟨K, hlt, hK⟩ := h hfailed
  exact hJ.not_prop_of_gt (hle.trans_lt hlt) hK

/-- Nothing that is excluded is naive. -/
theorem ensures_prune {E : NaiveVerifier → Prop} (hw : w.IsReady S e) (hI : I.size = S.atoms.size)
    (hr : w.Remembers S.framework I) : (prune S I).Ensures e w
      (fun cs w' ↦ w'.IsReady S e ∧ ∃ B, S.atoms.Selects cs B ∧
        ∀ J, S.framework.Naive J → J ∈ B) E :=
  (ensures_prune_selects hw hI).weaken fun _ _ h ↦
    ⟨h.1, _, h.2, fun _ hJ hfailed ↦ hr.not_le hJ hfailed⟩

end NaiveVerifier

end Dialectical
