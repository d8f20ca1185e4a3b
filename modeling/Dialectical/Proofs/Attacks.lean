import Dialectical.Proofs.Completions
import Dialectical.Proofs.Sessions
import Dialectical.Verifier.Admissible

/-!
# Verifying admissibility

An attack on an interpretation is a completion, on the links of a decided argument, under which the
condition of this argument fails. The encoding of attacks names the conditions on one side only, so
its names mean less than those of other encodings: a literal that it returns may be true only if the
condition fails, and can be made true if it does (`Encoder.Flags`). For a clause of such literals
that is enough, and the encoding is satisfiable if and only if the interpretation is not admissible.
-/

namespace Dialectical

open Act Clause

/-! ### Literals that flag a condition -/

/-- The encoder imposes `P` and returns literals that flag `Q`: some of them is true only if `Q`,
and some of them can be true if `Q`. -/
structure Encoder.Flags {α : Type} (x : Encoder α) (lits : α → List Literal) (k : Nat)
    (P Q : (Variable → Bool) → Prop) : Prop where
  localBelow : LocalBelow k P
  localBelow_flag : LocalBelow k Q
  gives : ∀ n, k ≤ n → ∃ a m D, x.Gives n a m D ∧ (∀ l ∈ lits a, l.var < m) ∧
    (∀ v, AllHold D v → P v ∧ ((∃ l ∈ lits a, l.holds v) → Q v)) ∧
    ∀ v, P v → ∃ w, AgreeBelow n v w ∧ AllHold D w ∧ (Q v → ∃ l ∈ lits a, l.holds w)

namespace Encoder

variable {α β : Type} {k : Nat} {P P' Q Q' : (Variable → Bool) → Prop}

/-- What is imposed and what is flagged may be said in other words. -/
theorem Flags.congr {x : Encoder α} {lits : α → List Literal} (h : x.Flags lits k P Q)
    (hP : ∀ v, P v ↔ P' v) (hQ : ∀ v, Q v ↔ Q' v) : x.Flags lits k P' Q' := by
  obtain rfl : P = P' := funext fun v ↦ propext (hP v)
  obtain rfl : Q = Q' := funext fun v ↦ propext (hQ v)
  exact h

/-- A positive name can be true only if the formula is, and can be true then. -/
theorem flags_positive {φ : Formula Literal} (hφ : ∀ l ∈ φ.occurrences, l.var < k) :
    Flags (ExceptT.lift (φ.named .positive)) ([·]) k (fun _ ↦ True)
      fun v ↦ φ.eval (Literal.holds v) = true := by
  refine ⟨localBelow_const k True, fun v w hvw hv ↦ ?_, fun n hn ↦ ?_⟩
  · exact (Formula.eval_holds_congr hφ hvw).symm.trans hv
  · obtain ⟨l, m, D, hD, hname⟩ :=
      φ.naming .positive fun l hl ↦ Nat.lt_of_lt_of_le (hφ l hl) hn
    refine ⟨l, m, D, gives_lift hD, by simpa using hname.var_lt, fun v hv ↦ ⟨trivial, ?_⟩,
      fun v _ ↦ ?_⟩
    · simpa using (hname.sound v hv).1 rfl
    · obtain ⟨w, hvw, hw, hl⟩ := hname.complete v
      exact ⟨w, hvw, hw, fun hv ↦ ⟨l, by simp, hl.trans hv⟩⟩

/-- The negation of a negative name flags that the formula is false. -/
theorem flags_negative {φ : Formula Literal} (hφ : ∀ l ∈ φ.occurrences, l.var < k) :
    Flags (do return (← φ.named .negative).negate) ([·]) k (fun _ ↦ True)
      fun v ↦ φ.eval (Literal.holds v) = false := by
  refine ⟨localBelow_const k True, fun v w hvw hv ↦ ?_, fun n hn ↦ ?_⟩
  · exact (Formula.eval_holds_congr hφ hvw).symm.trans hv
  · obtain ⟨l, m, D, hD, hname⟩ :=
      φ.naming .negative fun l hl ↦ Nat.lt_of_lt_of_le (hφ l hl) hn
    have hgives := gives_bind (f := fun l ↦ pure l.negate) (gives_lift hD) (gives_pure l.negate m)
    rw [List.append_nil] at hgives
    refine ⟨l.negate, m, D, hgives, by simpa [Literal.negate] using hname.var_lt,
      fun v hv ↦ ⟨trivial, ?_⟩, fun v _ ↦ ?_⟩
    · have hsound := (hname.sound v hv).2 rfl
      rintro ⟨_, hl', hl⟩
      rw [List.mem_singleton.1 hl', Literal.holds_negate, Bool.not_eq_true'] at hl
      exact Bool.eq_false_iff.2 fun hv ↦ Bool.noConfusion ((hsound hv).symm.trans hl)
    · obtain ⟨w, hvw, hw, hl⟩ := hname.complete v
      refine ⟨w, hvw, hw, fun hv ↦ ⟨l.negate, by simp, ?_⟩⟩
      rw [Literal.holds_negate, hl, hv]
      rfl

/-- A condition that is imposed before. -/
theorem Imposes.bind_flags {x : Encoder α} {f : α → Encoder β} {a : α} {lits : β → List Literal}
    (h : x.Imposes k a P) (h' : (f a).Flags lits k P' Q) :
    (x >>= f).Flags lits k (fun v ↦ P v ∧ P' v) Q := by
  refine ⟨h.localBelow.and h'.localBelow, h'.localBelow_flag, fun n hn ↦ ?_⟩
  obtain ⟨m, D, hD, hmean⟩ := h.gives n hn
  obtain ⟨b, m', D', hD', hvar, hsound, hcomplete⟩ := h'.gives m (hn.trans hD.le)
  refine ⟨b, m', D ++ D', gives_bind hD hD', hvar, fun v hv ↦ ?_, ?_⟩
  · obtain ⟨hvD, hvD'⟩ := allHold_append.1 hv
    exact ⟨⟨hmean.sound v hvD, (hsound v hvD').1⟩, (hsound v hvD').2⟩
  · rintro v ⟨hP, hP'⟩
    obtain ⟨u, hvu, hu⟩ := hmean.complete v hP
    have hvu' := hvu.mono hn
    obtain ⟨w, huw, hw, hflag⟩ := hcomplete u (h'.localBelow hvu' hP')
    exact ⟨w, hvu.trans (huw.mono hD.le),
      allHold_append.2 ⟨localBelow_allHold hD.span_le huw hu, hw⟩,
      fun hQ ↦ hflag (h'.localBelow_flag hvu' hQ)⟩

/-- Literals from a list of encoders flag that one of the conditions is met. -/
theorem Flags.mapM {as : List α} {f : α → Encoder Literal} {P Q : α → (Variable → Bool) → Prop}
    (h : ∀ a ∈ as, (f a).Flags ([·]) k (P a) (Q a)) :
    (as.mapM f).Flags id k (fun v ↦ ∀ a ∈ as, P a v) fun v ↦ ∃ a ∈ as, Q a v := by
  induction as with
  | nil =>
    refine ⟨fun _ _ _ _ ↦ by simp, fun _ _ _ hv ↦ by simp at hv, fun n _ ↦ ?_⟩
    exact ⟨[], n, [], gives_pure [] n, by simp, by simp, fun v _ ↦ ⟨v, .refl n v, by simp⟩⟩
  | cons a as ih =>
    have ha := h a (by simp)
    have has := ih fun b hb ↦ h b (by simp [hb])
    simp only [List.forall_mem_cons, List.exists_mem_cons_iff]
    refine ⟨ha.localBelow.and has.localBelow, fun v w hvw hv ↦
      hv.imp (ha.localBelow_flag hvw) (has.localBelow_flag hvw), fun n hn ↦ ?_⟩
    rw [List.mapM_cons]
    obtain ⟨l, m, D, hD, hl, hsound, hcomplete⟩ := ha.gives n hn
    obtain ⟨ls, m', D', hD', hls, hsound', hcomplete'⟩ := has.gives m (hn.trans hD.le)
    have hl : l.var < m := hl l (by simp)
    have htail := gives_bind hD' (f := fun ls ↦ pure (l :: ls)) (gives_pure (l :: ls) m')
    rw [List.append_nil] at htail
    refine ⟨l :: ls, m', D ++ D', gives_bind hD htail, ?_, fun v hv ↦ ?_, ?_⟩
    · exact List.forall_mem_cons.2 ⟨Nat.lt_of_lt_of_le hl hD'.le, hls⟩
    · obtain ⟨hvD, hvD'⟩ := allHold_append.1 hv
      refine ⟨⟨(hsound v hvD).1, (hsound' v hvD').1⟩, fun hlits ↦ ?_⟩
      rcases (List.exists_mem_cons_iff ..).1 hlits with hv | hv
      · exact .inl ((hsound v hvD).2 ⟨l, by simp, hv⟩)
      · exact .inr ((hsound' v hvD').2 hv)
    · rintro v ⟨hP, hP'⟩
      obtain ⟨u, hvu, hu, hflag⟩ := hcomplete v hP
      have hvu' := hvu.mono hn
      obtain ⟨w, huw, hw, hflag'⟩ := hcomplete' u (has.localBelow hvu' hP')
      refine ⟨w, hvu.trans (huw.mono hD.le),
        allHold_append.2 ⟨localBelow_allHold hD.span_le huw hu, hw⟩, ?_⟩
      rintro (hQ | hQ)
      · obtain ⟨l', hl', hlu⟩ := hflag hQ
        rw [List.mem_singleton.1 hl'] at hlu
        exact ⟨l, by simp, (Literal.holds_congr huw hl).symm.trans hlu⟩
      · obtain ⟨l', hl', hlw⟩ := hflag' (has.localBelow_flag hvu' hQ)
        exact ⟨l', List.mem_cons_of_mem _ hl', hlw⟩

/-- A clause of flags imposes what they flag. -/
theorem Flags.clause {x : Encoder (List Literal)} (h : x.Flags id k P Q) :
    (x >>= Encoder.clause).Imposes k () fun v ↦ P v ∧ Q v := by
  refine ⟨h.localBelow.and h.localBelow_flag, fun n hn ↦ ?_⟩
  obtain ⟨ls, m, D, hD, hls, hsound, hcomplete⟩ := h.gives n hn
  refine ⟨_, _, gives_bind hD (gives_lift (Emit.gives_clause ls m)), fun v hv ↦ ?_, ?_⟩
  · obtain ⟨hvD, hvls⟩ := allHold_append.1 hv
    exact ⟨(hsound v hvD).1, (hsound v hvD).2 (holds_iff.1 (allHold_singleton.1 hvls))⟩
  · rintro v ⟨hP, hQ⟩
    obtain ⟨w, hvw, hw, hflag⟩ := hcomplete v hP
    exact ⟨w, hvw, allHold_append.2 ⟨hw, allHold_singleton.2 (holds_iff.2 (hflag hQ))⟩⟩

end Encoder

/-! ### Attacks -/

namespace Setting

variable {S : Setting} {I : Interpretation} {a r : Nat} {b : Bool} {k : Nat}

/-- The clause for a parent says that its value is seen if it is decided, and there is none
otherwise. -/
theorem Fits.imposes_fixLink (hS : S.Fits) (hI : I.size = S.framework.size)
    (hr : r ∈ S.framework.parents a) : (S.fixLink I a r).Imposes S.atoms.count ()
      fun v ↦ ∀ c, I.Decides r c → S.seen v a r = c := by
  have hr := Framework.mem_parents.1 hr
  have hlt : r < I.size := hI ▸ (Framework.lt_size_of_mem_occurrences hr).1
  have hlink := hS.link_mem hr
  have hstatus := Interpretation.status?_of_lt hlt
  rcases Interpretation.decides_or_undecided hlt with ⟨b, hb⟩ | hu
  · have hok : I.status r = .ok (.ofBool b) := Interpretation.status_eq_ok.2 hb
    have hvalue : (Status.ofBool b).value? = some b := Status.value?_eq_some_iff.2 rfl
    have hclause : ∀ v : Variable → Bool, (True ∧ True ∧
        Clause.holds v [⟨S.atoms.linkAtom r a, b⟩]) ↔ ∀ c, I.Decides r c → S.seen v a r = c := by
      intro v
      simp only [true_and, holds_singleton, Literal.holds, beq_iff_eq]
      exact ⟨fun h c hc ↦ h.trans (hb.unique hc), fun h ↦ h b hb⟩
    have hspan : span [(⟨S.atoms.linkAtom r a, b⟩ : Literal)] ≤ S.atoms.count :=
      span_le_iff.2 (by simpa using Atoms.linkAtom_lt hlink)
    refine ((Encoder.imposes_ofExcept hok _).bind ?_).congr hclause
    rw [hvalue]
    exact (Encoder.imposes_ofExcept (Atoms.link_eq hlink).1 _).bind (Encoder.imposes_clause hspan)
  · have hok : I.status r = .ok .undecided := Interpretation.status_eq_ok.2 hu
    refine ((Encoder.imposes_ofExcept hok _).bind (Encoder.imposes_pure () _)).congr fun v ↦ ?_
    exact iff_of_true ⟨trivial, trivial⟩ fun c hc ↦
      absurd hc (Interpretation.not_decides_of_undecided hu)

/-- The literal for a decided argument flags that its condition fails. -/
theorem Fits.flags_failure (hS : S.Fits) (hI : I.size = S.framework.size) (hab : I.Decides a b) :
    (S.failure I a b).Flags ([·]) S.atoms.count (S.SeesDecided I a)
      fun v ↦ S.verdict v a = !b := by
  have hrequire : S.framework.require a = .ok () := by
    rw [Framework.require, if_pos (hI ▸ hab.lt_size)]
  have hlinks := Encoder.Imposes.forM fun r hr ↦ hS.imposes_fixLink hI (r := r) (a := a) hr
  have hnamed : Encoder.Flags (if b then do return (← (S.linkedCondition a).named .negative).negate
      else (S.linkedCondition a).named .positive : Encoder Literal) ([·]) S.atoms.count
      (fun _ ↦ True) fun v ↦ (S.linkedCondition a).eval (Literal.holds v) = !b := by
    cases b with
    | true => exact Encoder.flags_negative hS.var_lt_count
    | false => exact Encoder.flags_positive hS.var_lt_count
  refine ((Encoder.imposes_ofExcept hrequire _).bind_flags (hlinks.bind_flags
    ((Encoder.imposes_ofExcept (hS.linked_eq a) _).bind_flags hnamed))).congr (fun v ↦ ?_)
      fun v ↦ ?_
  · simp [SeesDecided]
  · rw [eval_linkedCondition]

/-- **The clauses of an attack** say that decided arguments see the values of their decided parents,
and that the condition of one of them fails. -/
theorem Fits.imposes_attack (hS : S.Fits) (hI : I.size = S.framework.size) :
    (S.attack I).Imposes S.atoms.count () fun v ↦ (∀ p ∈ I.decided, S.SeesDecided I p.1 v) ∧
      ∃ p ∈ I.decided, S.verdict v p.1 = !p.2 :=
  (Encoder.Flags.mapM fun _ hp ↦ hS.flags_failure hI (Interpretation.mem_decided.1 hp)).clause

/-- **There is an attack unless the interpretation is admissible.** -/
theorem Fits.exists_attack_iff (hS : S.Fits) (hI : I.size = S.framework.size) :
    (∃ v, (∀ p ∈ I.decided, S.SeesDecided I p.1 v) ∧ ∃ p ∈ I.decided, S.verdict v p.1 = !p.2) ↔
      ¬S.framework.Admissible I := by
  constructor
  · rintro ⟨v, hsees, ⟨a, b⟩, hab, hv⟩ hadm
    obtain ⟨w, hw, heval⟩ := (hsees _ hab).exists_completion
    have hforced := hadm.forces a b (Interpretation.mem_decided.1 hab) w hw
    rw [heval, hv] at hforced
    cases b <;> exact Bool.noConfusion hforced
  · intro hadm
    -- one completion against a decided argument is enough, for all arguments alike
    have hnot : ∃ a b, I.Decides a b ∧ ¬S.framework.Forces I a b := by
      by_contra hno
      push Not at hno
      exact hadm ⟨hI, hno⟩
    obtain ⟨a, b, hab, hf⟩ := hnot
    obtain ⟨w, hw, heval⟩ := Framework.not_forces_iff.1 hf
    refine ⟨S.atoms.valuation I fun _ ↦ w, ?_, ⟨a, b⟩, Interpretation.mem_decided.2 hab, ?_⟩
    · rintro ⟨d, c⟩ - r hr c' hc'
      rw [seen, Atoms.valuation_linkAtom (hS.link_mem (Framework.mem_parents.1 hr))]
      exact hw r c' hc'
    · rw [hS.verdict_valuation, heval]

end Setting

/-! ### The verifier -/

namespace AdmissibleVerifier

variable {S : Setting} {e : Engine} {I : Interpretation} {v : AdmissibleVerifier}

/-- An open verifier is prepared by looking at it. -/
theorem ensures_prepare {E : AdmissibleVerifier → Prop} (hv : v.closed = false) :
    prepare.Ensures e v (fun _ v' ↦ v' = v) E := by
  rw [prepare, ensures_get_bind, hv]
  exact ensures_pure.2 rfl

/-- **The verifier accepts exactly the admissible interpretations.** -/
theorem ensures_verify (hS : S.Fits) (he : e.Sound) (hv : v.closed = false)
    (hI : I.size = S.framework.size) : (verify S I).Ensures e v
      (fun b v' ↦ (b ↔ S.framework.Admissible I) ∧ v' = v) fun v' ↦ v' = v := by
  refine (ensures_prepare hv).bind ?_
  rintro - _ rfl
  refine Session.ensures_during fun s hs ↦ ?_
  refine (hs.perform (hS.imposes_attack hI)).bind fun _ s' hs' ↦ ?_
  refine ((Session.ensures_satisfiable he).weakenFault fun _ _ ↦ rfl).bind ?_
  rintro b - ⟨hb, -⟩
  refine ensures_pure.2 ⟨?_, rfl⟩
  have hattack := hs'.2.solvable_iff
  simp only [true_and] at hattack
  rw [Bool.not_eq_true', ← Bool.not_eq_true, hb, hattack, hS.exists_attack_iff hI, not_not]

/-- Going on with the verdict, beside another state. -/
theorem ensures_verify_bind {σ α : Type} {s : σ} {f : Bool → Act (σ × AdmissibleVerifier) α}
    {Q : α → σ × AdmissibleVerifier → Prop} {E : σ × AdmissibleVerifier → Prop} (hS : S.Fits)
    (he : e.Sound) (hv : v.closed = false) (hI : I.size = S.framework.size) (hE : E (s, v))
    (h : ∀ b : Bool, (b ↔ S.framework.Admissible I) → (f b).Ensures e (s, v) Q E) :
    (Act.second (verify S I) >>= f).Ensures e (s, v) Q E := by
  refine ((ensures_verify hS he hv hI).weakenFault fun v' hv' ↦ ?_).second_bind ?_
  · exact hv' ▸ hE
  · rintro b _ ⟨hb, rfl⟩
    exact h b hb

end AdmissibleVerifier

end Dialectical
