import Dialectical.Proofs.Engines
import Dialectical.Proofs.Stability

/-!
# Reducts have no links of their own

The graph of a reduct is read off conditions that were simplified, while the atoms are those of the
framework. This is sound because substitution only takes occurrences away: what is rejected occurs
nowhere any more (`Framework.not_mem_parents_reject`), and each link that is left was a link before.

A missing link would be a fault. That there is none when stability is verified is a property of the
program and not of the engine, so it is shown for every engine, also one that gives wrong answers or
none (`Act.FindsLinks`). Links are looked up in one place, where the session of the ground generator
is opened, and there the atoms of the framework serve for the reduct; after that there are only
questions about names.
-/

namespace Dialectical

open Act

variable {σ τ α β : Type} {e : Engine}

/-! ### What is left of a framework -/

/-- **What is rejected occurs nowhere** in a reduct. -/
theorem Framework.not_mem_parents_reject {F : Framework} {off : Nat → Bool} {r : Nat}
    (hr : off r = true) (a : Nat) : r ∉ (F.reject off).parents a := by
  rw [mem_parents, condition_reject, reductCondition]
  split
  · exact List.not_mem_nil
  · intro hmem
    have hundefined := (Formula.occurrences_substitute hmem).2
    rw [if_pos hr] at hundefined
    exact Option.some_ne_none _ hundefined

/-- What is rejected is rejected by its condition. -/
theorem Framework.condition_reject_of_rejected {F : Framework} {off : Nat → Bool} {a : Nat}
    (ha : off a = true) : (F.reject off).condition a = .bot := by
  rw [condition_reject, reductCondition, if_pos ha]

/-! ### Actions that find their links -/

namespace Act

/-- The action does not end with the fault of a missing link, whatever the journal says. -/
def FindsLinks (e : Engine) (x : Act σ α) (s : σ) : Prop :=
  ∀ j r a, (x.run e s j).result ≠ .error (.noSuchLink r a)

section

variable {s : σ}

/-- What always ends with a value has no fault. -/
theorem findsLinks_of_ok {x : Act σ α} (h : ∀ j, ∃ a, (x.run e s j).result = .ok a) :
    x.FindsLinks e s := by
  intro j r a
  obtain ⟨b, hb⟩ := h j
  simp [hb]

theorem findsLinks_pure {a : α} : (pure a : Act σ α).FindsLinks e s :=
  findsLinks_of_ok fun _ ↦ ⟨a, rfl⟩

theorem findsLinks_modify {f : σ → σ} : (modify f).FindsLinks e s :=
  findsLinks_of_ok fun _ ↦ ⟨(), rfl⟩

theorem findsLinks_record {f : Journal → Journal} : (record f : Act σ Unit).FindsLinks e s :=
  findsLinks_of_ok fun _ ↦ ⟨(), rfl⟩

theorem findsLinks_get_bind {f : σ → Act σ α} :
    (get >>= f).FindsLinks e s ↔ (f s).FindsLinks e s := Iff.rfl

/-- Another fault is no missing link. -/
theorem findsLinks_throw {fault : Fault} (h : ∀ r a, fault ≠ .noSuchLink r a) :
    (throw fault : Act σ α).FindsLinks e s :=
  fun _ r a heq ↦ h r a (Except.error.inj heq)

theorem findsLinks_ofExcept {x : Except Fault α} (h : ∀ r a, x ≠ .error (.noSuchLink r a)) :
    (ofExcept x : Act σ α).FindsLinks e s :=
  fun _ ↦ h

/-- **Sequencing.** -/
theorem FindsLinks.bind {x : Act σ α} {f : α → Act σ β} (hx : x.FindsLinks e s)
    (hf : ∀ a s', (f a).FindsLinks e s') : (x >>= f).FindsLinks e s := by
  intro j
  have hj := hx j
  rw [run_bind]
  rcases hrun : x.run e s j with ⟨fault | a, s', j'⟩ <;> rw [hrun] at hj
  · exact fun r a heq ↦ hj r a (congrArg Except.error (Except.error.inj heq))
  · exact hf a s' j'

/-- Going on from a pure computation with what is known of its value. -/
theorem FindsLinks.ofExcept_bind {x : Except Fault β} {f : β → Act σ α}
    (hx : ∀ r a, x ≠ .error (.noSuchLink r a)) (hf : ∀ b, x = .ok b → (f b).FindsLinks e s) :
    (ofExcept x >>= f).FindsLinks e s := by
  cases x with
  | error fault => exact fun _ r a heq ↦ hx r a (congrArg Except.error (Except.error.inj heq))
  | ok b => exact hf b rfl

/-- A loop whose every turn finds its links. -/
theorem findsLinks_forM {as : List β} {f : β → Act σ PUnit} (h : ∀ b s', (f b).FindsLinks e s') :
    (as.forM f).FindsLinks e s := by
  induction as generalizing s with
  | nil => exact findsLinks_pure
  | cons b as ih =>
    show (f b >>= fun _ ↦ as.forM f).FindsLinks e s
    exact (h b s).bind fun _ _ ↦ ih

/-- What acts on a part of the state finds there what it finds alone. -/
theorem FindsLinks.on {x : Act τ α} {part : σ → τ} {put : σ → τ → σ}
    (hx : x.FindsLinks e (part s)) : (on part put x).FindsLinks e s := hx

theorem FindsLinks.into {x : Act τ α} {wrap : τ → σ} {t : τ} (hx : x.FindsLinks e t) :
    (into wrap t x).FindsLinks e s := hx

theorem FindsLinks.lift {x : Act Unit α} (hx : x.FindsLinks e ()) :
    (lift x).FindsLinks e s := hx

/-- A bracket around a state that is at hand. -/
theorem FindsLinks.bracket {x : Act τ α} {t : τ} {release : Act τ Unit} (hx : x.FindsLinks e t) :
    (bracket (pure t) release x).FindsLinks e s := hx

/-- What is ensured has no fault but that of an engine that gave up. -/
theorem Ensures.findsLinks {x : Act σ α} {Q : α → σ → Prop} {E : σ → Prop}
    (h : x.Ensures e s Q E) : x.FindsLinks e s :=
  fun _ _ _ heq ↦ Fault.noConfusion (h.eq_unknownAnswer heq)

end

end Act

/-! ### Questions -/

namespace Solver

variable {s : Solver}

theorem findsLinks_notifyStart {n m : Nat} (l : Listener) (s : Solver) :
    (notifyStart n m l).FindsLinks e s := by
  cases l <;> exact findsLinks_record

theorem findsLinks_notifyFinish {verdict : Option Bool} (l : Listener) (s : Solver) :
    (notifyFinish verdict l).FindsLinks e s := by
  cases l <;> exact findsLinks_record

/-- A call of the engine names no link. -/
theorem findsLinks_call (ls : List Literal) : (call ls).FindsLinks e s := by
  have hcover : ∀ s', (cover ls).FindsLinks e s' := fun _ ↦ findsLinks_of_ok fun _ ↦ ⟨_, rfl⟩
  have hconsult : ∀ s', (consult ls).FindsLinks e s' := fun _ ↦ findsLinks_of_ok fun _ ↦ ⟨_, rfl⟩
  rw [call, findsLinks_get_bind]
  refine (findsLinks_forM findsLinks_notifyStart).bind fun _ s₁ ↦ ?_
  refine (hcover s₁).bind fun _ s₂ ↦ (hconsult s₂).bind fun answer s₃ ↦ ?_
  exact (findsLinks_forM findsLinks_notifyFinish).bind fun _ _ ↦ findsLinks_pure

/-- A question has an answer, or none. -/
theorem findsLinks_solve (ls : List Literal) : (solve ls).FindsLinks e s := by
  have hrefused : refused.FindsLinks e s := findsLinks_of_ok fun _ ↦ ⟨_, rfl⟩
  have hreply : (reply ls).FindsLinks e s := by
    refine hrefused.bind fun b s' ↦ ?_
    cases b with
    | true => exact findsLinks_pure
    | false => exact findsLinks_call ls
  rw [solve_eq]
  refine hreply.bind fun answer s' ↦ ?_
  have hnote : (note (.solved · ls answer.verdict)).FindsLinks e s' :=
    findsLinks_get_bind.2 findsLinks_record
  exact hnote.bind fun _ _ ↦ findsLinks_pure

end Solver

namespace NamedSession

variable {s : NamedSession}

/-- Nor does a question under assumptions. -/
theorem findsLinks_satisfiableWith (ls : List Literal) :
    (satisfiableWith ls).FindsLinks e s := by
  refine FindsLinks.on (findsLinks_modify.bind fun _ t ↦ FindsLinks.bind ?_ fun answer t' ↦ ?_)
  · rw [Session.check, findsLinks_get_bind]
    exact findsLinks_modify.bind fun _ t' ↦ FindsLinks.on (Solver.findsLinks_solve _)
  · exact findsLinks_ofExcept fun r a ↦ by cases answer <;> simp [Answer.isSatisfiable]

/-- A clause is added without a fault. -/
theorem findsLinks_add {c : Clause} : (onSession (Session.add c)).FindsLinks e s :=
  FindsLinks.on (Session.ensures_add (E := fun _ ↦ True)).findsLinks

end NamedSession

/-- Looking something up by its index may fail, but is not about links. -/
theorem Fault.lookup_ne_noSuchLink {xs : List α} {i r a : Nat} :
    Fault.lookup xs i ≠ .error (.noSuchLink r a) := by
  unfold Fault.lookup
  cases xs[i]? <;> simp

/-! ### The ground interpretation -/

namespace Setting

variable {S : Setting} {given : Option Interpretation} {s : NamedSession} {I : Interpretation}

/-- Comparing a status with the given interpretation names no link. -/
theorem contradicts_ne_noSuchLink {b : Nat} {t : Status} {r a : Nat} :
    contradicts given b t ≠ .error (.noSuchLink r a) := by
  cases given with
  | none => exact fun heq ↦ by cases heq
  | some J =>
    have hstatus : Fault.lookup J.statuses b ≠ .error (.noSuchLink r a) :=
      Fault.lookup_ne_noSuchLink
    show (J.status b >>= _) ≠ _
    rw [Interpretation.status]
    cases hlookup : Fault.lookup J.statuses b with
    | error fault => exact fun heq ↦ hstatus (hlookup.trans (congrArg _ (Except.error.inj heq)))
    | ok u => exact fun heq ↦ by cases heq

/-- A condition is put to the solver without any link. -/
theorem findsLinks_forcedStatus (b : Nat) : (S.forcedStatus b).FindsLinks e s := by
  have hname : (NamedSession.nameOf b).FindsLinks e s :=
    findsLinks_get_bind.2 (findsLinks_ofExcept fun _ _ ↦ Fault.lookup_ne_noSuchLink)
  refine hname.bind fun name s₁ ↦ ?_
  refine (NamedSession.findsLinks_satisfiableWith _).bind fun canFail s₂ ↦ ?_
  cases canFail with
  | false => exact NamedSession.findsLinks_add.bind fun _ _ ↦ findsLinks_pure
  | true =>
    refine (NamedSession.findsLinks_satisfiableWith _).bind fun canHold s₃ ↦ ?_
    cases canHold with
    | false => exact NamedSession.findsLinks_add.bind fun _ _ ↦ findsLinks_pure
    | true => exact findsLinks_pure

/-- A round asks for one condition after the other. -/
theorem findsLinks_groundRound (as : List Nat) :
    (S.groundRound given as I).FindsLinks e s := by
  induction as generalizing I s with
  | nil => exact findsLinks_pure
  | cons b as ih =>
    rw [groundRound]
    refine (findsLinks_forcedStatus b).bind fun forced s₁ ↦ ?_
    cases forced with
    | none => exact ih
    | some t =>
      refine (findsLinks_ofExcept fun _ _ ↦ contradicts_ne_noSuchLink).bind fun c s₂ ↦ ?_
      cases c with
      | false => exact ih
      | true =>
        refine (findsLinks_ofExcept fun _ _ ↦ Fault.lookup_ne_noSuchLink).bind fun label s₃ ↦ ?_
        exact findsLinks_record.bind fun _ _ ↦ findsLinks_pure

/-- Rounds find their links, by induction on how many are left. -/
theorem findsLinks_groundRounds (n done : Nat) :
    (S.groundRounds given n done I).FindsLinks e s := by
  induction n generalizing done I s with
  | zero => exact findsLinks_pure
  | succ n ih =>
    rw [groundRounds]
    refine (findsLinks_groundRound _).bind fun next s₁ ↦ ?_
    cases next with
    | none => exact findsLinks_pure
    | some J =>
      dsimp only
      split
      · exact findsLinks_pure
      · exact ih _

/-- And so does the whole computation, whatever bound it runs under. -/
theorem findsLinks_groundFixpoint : (S.groundFixpoint given).FindsLinks e s := by
  refine (findsLinks_groundRounds _ _).bind fun result s₁ ↦ ?_
  cases result with
  | none => exact findsLinks_pure
  | some result =>
    refine findsLinks_record.bind fun _ s₂ ↦ ?_
    cases given with
    | none => exact findsLinks_pure
    | some J =>
      dsimp only
      split
      · exact findsLinks_pure
      · exact findsLinks_record.bind fun _ _ ↦ findsLinks_pure

theorem findsLinks_exhaust : exhaust.FindsLinks e s := by
  refine FindsLinks.on ((Session.ensures_fresh (E := fun _ ↦ True)).findsLinks.bind fun v t ↦ ?_)
  refine (Session.ensures_add (E := fun _ ↦ True)).findsLinks.bind fun _ t' ↦ ?_
  exact (Session.ensures_add (E := fun _ ↦ True)).findsLinks

/-- **The ground generator** names no link. -/
theorem findsLinks_nextGround : (S.nextGround given).FindsLinks e s := by
  refine (NamedSession.findsLinks_satisfiableWith _).bind fun b s₁ ↦ ?_
  cases b with
  | false => exact findsLinks_pure
  | true =>
    refine findsLinks_groundFixpoint.bind fun result s₂ ↦ ?_
    exact findsLinks_exhaust.bind fun _ _ ↦ findsLinks_pure

end Setting

/-- **The ground generator finds its links** if there is an atom for each of them. -/
theorem Generator.findsLinks_next_ground {S : Setting} (hS : S.Fits)
    (given : Option Interpretation) : (next S).FindsLinks e (new .ground given) := by
  obtain ⟨G, hG⟩ := S.framework.exists_isGround
  have hstart : (start S .ground given).FindsLinks e () :=
    (ensures_start_ground hS hG (E := fun _ ↦ True)).findsLinks
  rw [next, findsLinks_get_bind]
  refine findsLinks_get_bind.2 (findsLinks_get_bind.2 (FindsLinks.on ?_))
  refine findsLinks_get_bind.2 (hstart.lift.bind fun kept _ ↦ FindsLinks.into ?_)
  exact Setting.findsLinks_nextGround

/-! ### The verifier -/

/-- The atoms of a framework serve for the reduct by any interpretation, if it has one. -/
theorem Setting.Fits.reduct {S : Setting} {I : Interpretation} {R : Framework} (hS : S.Fits)
    (hR : S.framework.reduct I = .ok R) : Setting.Fits ⟨R, S.atoms⟩ := by
  rw [Framework.reduct] at hR
  split at hR
  · exact Except.ok.inj hR ▸ hS.reject _
  · cases hR

/-- **Verifying stability never misses a link**, whatever the interpretation. -/
theorem StableVerifier.findsLinks_verify {S : Setting} (hS : S.Fits) (I : Interpretation)
    (v : StableVerifier) : (verify S I).FindsLinks e v := by
  have hprepare : prepare.FindsLinks e v := by
    rw [prepare, findsLinks_get_bind]
    split
    · exact findsLinks_throw fun _ _ ↦ Fault.noConfusion
    · exact findsLinks_pure
  refine hprepare.bind fun _ v' ↦ ?_
  split
  · refine FindsLinks.ofExcept_bind (fun r a ↦ ?_) fun R hR ↦ ?_
    · rw [Framework.reduct]
      split <;> simp
    · have hground := Generator.findsLinks_next_ground (e := e) (hS.reduct hR) (some I)
      exact hground.bracket.bind fun _ _ ↦ findsLinks_pure
  · exact findsLinks_pure

/-- **Reducts have no links of their own.** In a reduct the rejected arguments have the
contradiction as their condition and are nobody's parents; the other conditions have their values
wherever the rejected arguments are false; and every link is one of the framework. So the atoms of
the framework are all that verifying stability needs, whatever the engine answers. -/
theorem reducts_have_no_new_links (F : Framework) (I : Interpretation) (hI : I.size = F.size) :
    (∃ R : Framework, F.reduct I = .ok R ∧ R.size = F.size ∧
      (∀ a, I.isUnsatisfied a → R.condition a = .bot) ∧
      (∀ a, ¬I.isUnsatisfied a → ∀ v : Nat → Bool, (∀ r, I.isUnsatisfied r → v r = false) →
        (R.condition a).eval v = (F.condition a).eval v) ∧
      (∀ r, I.isUnsatisfied r → ∀ a, r ∉ R.parents a) ∧
      R.links ⊆ F.links) ∧
    ∀ (e : Engine) (v : StableVerifier) (j : Journal) (r a : Nat),
      ((StableVerifier.verify (.of F) I).run e v j).result ≠ .error (.noSuchLink r a) := by
  refine ⟨⟨F.reject I.isUnsatisfied, if_pos hI, F.size_reject _, ?_, ?_, ?_, ?_⟩, ?_⟩
  · exact fun a ha ↦ Framework.condition_reject_of_rejected ha
  · exact fun a ha v hv ↦ Framework.eval_condition_reject_of_false (Bool.eq_false_iff.2 ha) hv
  · exact fun r hr a ↦ Framework.not_mem_parents_reject hr a
  · exact F.links_reject_subset _
  · exact fun e v ↦ StableVerifier.findsLinks_verify (Setting.fits_of F) I v

/-- The case of two arguments that exclude each other, one of which is rejected: it is nobody's
parent any more, and the other one is accepted. -/
theorem reducts_have_no_new_links_mutualExclusion :
    (⟨[.satisfied, .unsatisfied]⟩ : Interpretation).size = Framework.mutualExclusion.size ∧
    (∃ R : Framework, Framework.mutualExclusion.reduct ⟨[.satisfied, .unsatisfied]⟩ = .ok R ∧
      R.condition 1 = .bot ∧ (∀ v : Nat → Bool, v 1 = false → (R.condition 0).eval v = true) ∧
      (∀ a, 1 ∉ R.parents a) ∧ R.links ⊆ [⟨1, 0⟩, ⟨0, 1⟩]) ∧
    ∀ r a, ((StableVerifier.verify (.of .mutualExclusion) ⟨[.satisfied, .unsatisfied]⟩).run
      .exhaustive {} .empty).result ≠ .error (.noSuchLink r a) := by
  have hsize : (⟨[.satisfied, .unsatisfied]⟩ : Interpretation).size =
      Framework.mutualExclusion.size := rfl
  obtain ⟨⟨R, hR, -, hbot, heval, hparents, hlinks⟩, hverify⟩ :=
    reducts_have_no_new_links .mutualExclusion _ hsize
  refine ⟨hsize, ⟨R, hR, hbot 1 rfl, fun v hv ↦ ?_, hparents 1 rfl, hlinks⟩,
    hverify .exhaustive {} .empty⟩
  have hfalse : ∀ r, (⟨[.satisfied, .unsatisfied]⟩ : Interpretation).isUnsatisfied r → v r = false
    | 0, h => absurd h (by decide)
    | 1, _ => hv
    | _ + 2, h => absurd h (by simp [Interpretation.isUnsatisfied, Interpretation.status?])
  rw [heval 0 (by decide) v hfalse]
  simp [Framework.condition, Framework.mutualExclusion, Formula.eval, hv]

end Dialectical
