import Dialectical.Pipeline
import Dialectical.Proofs.Accounting

/-!
# What components hold

The components of a pipeline, accounted for. Link types, the verifiers of admissibility, preference
and stability, and the processors open solvers for the duration of an action only, so they are
neutral. The generators hold one solver from their first use until they are closed, and so do the
verifiers of completeness and naivety (`Verifier.held`).
-/

namespace Dialectical

open Act

variable {σ α : Type}

/-! ### Link types -/

namespace Framework

/-- Two formulas are named and the solver is asked twice, in a session that is there already. -/
theorem isNeutral_linkType (c : Condition) (parent child : Nat) :
    (linkType c parent child).IsNeutral := by
  refine (Session.isNeutral_perform _).bind fun whenFalse ↦ ?_
  refine (Session.isNeutral_perform _).bind fun whenTrue ↦ ?_
  refine (Session.isNeutral_assume _).bind fun _ ↦ Session.isNeutral_satisfiable.bind fun b ↦ ?_
  refine (Session.isNeutral_assume _).bind fun _ ↦ Session.isNeutral_satisfiable.bind fun b' ↦ ?_
  exact isNeutral_log.bind fun _ ↦ respects_pure

/-- There is a session for each argument, and none for an argument without parents. -/
theorem isNeutral_linkTypesTo (F : Framework) (child : Nat) :
    (F.linkTypesTo child : Act σ LinkTypes).IsNeutral := by
  rw [linkTypesTo]
  split
  · exact respects_pure
  · exact Session.isNeutral_during (respects_mapM fun r ↦ isNeutral_linkType _ r child)

theorem isNeutral_linkTypes (F : Framework) : (F.linkTypes : Act σ LinkTypes).IsNeutral :=
  (respects_mapM F.isNeutral_linkTypesTo).bind fun _ ↦ respects_pure

end Framework

/-- Types that are kept are not computed again. -/
theorem isNeutral_keptLinkTypes (F : Framework) : (keptLinkTypes F).IsNeutral := by
  refine respects_get.bind fun types? ↦ ?_
  cases types? with
  | some types => exact respects_pure
  | none =>
    refine F.isNeutral_linkTypes.bind fun types ↦ isNeutral_log.bind fun _ ↦ ?_
    exact isNeutral_modify.bind fun _ ↦ respects_pure

theorem Setting.isNeutral_addBipolar (S : Setting) (types : LinkTypes) (k : Nat) :
    (S.addBipolar types k).IsNeutral :=
  (Session.isNeutral_perform _).bind fun _ ↦ isNeutral_log

/-! ### The ground interpretation -/

namespace Setting

variable (S : Setting) (given : Option Interpretation)

/-- A forced value costs two questions and one clause. -/
theorem isNeutral_forcedStatus (a : Nat) : (S.forcedStatus a).IsNeutral := by
  have hdecide : ∀ (c : Clause) (s : Status), (do
      NamedSession.onSession (Session.add c)
      return some s : Act NamedSession (Option Status)).IsNeutral := by
    intro c s
    have hadd : (NamedSession.onSession (Session.add c)).IsNeutral := (Session.isNeutral_add c).on
    exact hadd.bind fun _ ↦ respects_pure
  refine (NamedSession.isNeutral_nameOf a).bind fun name ↦ ?_
  refine (NamedSession.isNeutral_satisfiableWith _).bind fun b ↦ ?_
  cases b with
  | false => exact hdecide _ _
  | true =>
    refine (NamedSession.isNeutral_satisfiableWith _).bind fun b ↦ ?_
    cases b with
    | false => exact hdecide _ _
    | true => exact respects_pure

theorem isNeutral_groundRound (as : List Nat) (I : Interpretation) :
    (S.groundRound given as I).IsNeutral := by
  induction as generalizing I with
  | nil => exact respects_pure
  | cons a as ih =>
    refine (S.isNeutral_forcedStatus a).bind fun s? ↦ ?_
    cases s? with
    | none => exact ih I
    | some s =>
      refine respects_ofExcept.bind fun b ↦ ?_
      cases b with
      | false => exact ih _
      | true =>
        exact respects_ofExcept.bind fun _ ↦ isNeutral_log.bind fun _ ↦ respects_pure

/-- However many rounds there are, and however they end. -/
theorem isNeutral_groundRounds (n done : Nat) (I : Interpretation) :
    (S.groundRounds given n done I).IsNeutral := by
  induction n generalizing done I with
  | zero => exact respects_pure
  | succ n ih =>
    refine (S.isNeutral_groundRound given I.undecided I).bind fun next? ↦ ?_
    cases next? with
    | none => exact respects_pure
    | some next =>
      dsimp only
      split
      · exact respects_pure
      · exact ih _ _

theorem isNeutral_groundFixpoint : (S.groundFixpoint given).IsNeutral := by
  refine (S.isNeutral_groundRounds given _ _ _).bind fun result? ↦ ?_
  cases result? with
  | none => exact respects_pure
  | some result =>
    refine isNeutral_log.bind fun _ ↦ ?_
    cases given with
    | none => exact respects_pure
    | some J =>
      dsimp only
      split
      · exact respects_pure
      · exact isNeutral_log.bind fun _ ↦ respects_pure

/-- After the ground interpretation was computed the session is told a contradiction; it is not
released. -/
theorem isNeutral_nextGround : (S.nextGround given).IsNeutral := by
  have hexhaust : exhaust.IsNeutral := by
    have hcontradict : (do
        let v ← Session.fresh
        Session.add [v.pos]
        Session.add [v.neg]).IsNeutral :=
      Session.isNeutral_fresh.bind fun v ↦
        (Session.isNeutral_add _).bind fun _ ↦ Session.isNeutral_add _
    exact hcontradict.on
  refine (NamedSession.isNeutral_satisfiableWith []).bind fun b ↦ ?_
  cases b with
  | false => exact respects_pure
  | true =>
    exact (S.isNeutral_groundFixpoint given).bind fun _ ↦ hexhaust.bind fun _ ↦ respects_pure

end Setting

/-! ### Generators -/

namespace Generator

variable {S : Setting}

/-- The number of solvers that a generator holds. -/
def held (g : Generator) : Nat := g.phase.held

/-- **Opening a generator** opens one solver, whatever the goal is. -/
theorem opens_start (goal : Goal) (given : Option Interpretation) :
    (start S goal given).Opens fun _ ↦ 1 := by
  refine NamedSession.opens_acquire ((Session.isNeutral_perform _).bind fun names ↦ ?_)
  cases goal <;> exact isNeutral_log.bind fun _ ↦ respects_pure

/-- A generator that is used has its solver from then on. -/
theorem respects_useNamed {x : Act NamedSession α} (hx : x.IsNeutral) :
    (useNamed S x).Respects (Retains held fun _ ↦ 1) :=
  respects_get.bind fun g ↦ (Lifecycle.respects_use (opens_start g.goal g.given) hx).on
    fun _ _ _ _ h ↦ h

theorem respects_use {x : Act Session α} (hx : x.IsNeutral) :
    (use S x).Respects (Retains held fun _ ↦ 1) :=
  respects_useNamed hx.on

theorem respects_prepare : (prepare S).Respects (Retains held fun _ ↦ 1) :=
  respects_useNamed respects_pure

/-- A generator that was prepared is in use. -/
theorem held_of_run_prepare {e : Engine} {g : Generator} {j : Journal}
    (h : ((prepare S).run e g j).result = .ok ()) : ((prepare S).run e g j).state.held = 1 :=
  Lifecycle.held_of_run_use h

theorem isNeutral_nextWitness : (nextWitness S).IsNeutral := by
  refine (Session.isNeutral_witness _).bind fun vs? ↦ ?_
  cases vs? with
  | none => exact respects_pure
  | some vs => exact (Session.isNeutral_add _).bind fun _ ↦ respects_pure

/-- **The next candidate** is read from that solver. -/
theorem respects_next : (next S).Respects (Retains held fun _ ↦ 1) := by
  refine respects_get.bind fun g ↦ ?_
  cases g.goal with
  | ground =>
    exact respects_get.bind fun g' ↦ respects_useNamed (S.isNeutral_nextGround g'.given)
  | conflictFree | twoValued => exact respects_use isNeutral_nextWitness

/-- And closing the generator releases it. -/
theorem closes_close : close.Closes held where
  held_eq e g j := NamedSession.closes_close.held_eq e g.phase j
  respects := NamedSession.closes_close.respects.on fun _ _ _ _ h ↦ h

end Generator

/-! ### Verifiers without a session of their own -/

namespace AdmissibleVerifier

theorem isNeutral_prepare : prepare.IsNeutral := by
  refine respects_get.bind fun v ↦ ?_
  split
  · exact respects_throw
  · exact respects_pure

/-- The session of a verification is released at its end. -/
theorem isNeutral_verify (S : Setting) (I : Interpretation) : (verify S I).IsNeutral :=
  isNeutral_prepare.bind fun _ ↦ Session.isNeutral_during <|
    (Session.isNeutral_perform _).bind fun _ ↦
      Session.isNeutral_satisfiable.bind fun _ ↦ respects_pure

end AdmissibleVerifier

namespace PreferredVerifier

theorem isNeutral_prepare : prepare.IsNeutral := AdmissibleVerifier.isNeutral_prepare.on

/-- Each candidate of the search is verified in a session of its own, beside that of the search. -/
theorem isNeutral_firstAdmissible (S : Setting) (n : Nat) : (firstAdmissible S n).IsNeutral := by
  induction n with
  | zero => exact respects_throw
  | succ n ih =>
    refine (Session.isNeutral_witness _).first.bind fun vs? ↦ ?_
    cases vs? with
    | none => exact respects_pure
    | some vs =>
      refine (AdmissibleVerifier.isNeutral_verify S _).second.bind fun b ↦ ?_
      cases b with
      | true => exact respects_pure
      | false => exact (Session.isNeutral_add _).first.bind fun _ ↦ ih

theorem isNeutral_findLarger (S : Setting) (I : Interpretation) : (findLarger S I).IsNeutral := by
  have hopening : (do
      Session.perform S.conflictFree
      Session.perform (Encoder.clauses (S.atoms.extending I)) : Act Session Unit).IsNeutral :=
    (Session.isNeutral_perform _).bind fun _ ↦ Session.isNeutral_perform _
  exact Session.isNeutral_beside (hopening.first.bind fun _ ↦ isNeutral_firstAdmissible S _)

/-- First the interpretation is verified and then something larger is looked for, each in its
sessions. -/
theorem isNeutral_verify (S : Setting) (I : Interpretation) : (verify S I).IsNeutral := by
  have hadmissible : (onAdmissible (AdmissibleVerifier.verify S I)).IsNeutral :=
    (AdmissibleVerifier.isNeutral_verify S I).on
  have hlarger : (onAdmissible (findLarger S I)).IsNeutral := (isNeutral_findLarger S I).on
  refine isNeutral_modify.bind fun _ ↦ hadmissible.bind fun b ↦ ?_
  cases b with
  | true => exact hlarger.bind fun _ ↦ isNeutral_modify.bind fun _ ↦ respects_pure
  | false => exact respects_pure

theorem isNeutral_prune (S : Setting) (I : Interpretation) : (prune S I).IsNeutral := by
  refine respects_get.bind fun v ↦ ?_
  split
  · exact isNeutral_modify.bind fun _ ↦ respects_pure
  · exact respects_pure

end PreferredVerifier

namespace StableVerifier

theorem isNeutral_prepare : prepare.IsNeutral := by
  refine respects_get.bind fun v ↦ ?_
  split
  · exact respects_throw
  · exact respects_pure

/-- The generator for a reduct is closed when it has been asked. -/
theorem isNeutral_ground (S : Setting) (I : Interpretation) :
    (ground S I : Act σ (Option Interpretation)).IsNeutral := by
  have hnew : Opens (pure (Generator.new .ground (some I))) Generator.held := fun _ _ _ ↦ rfl
  have hnext : (Generator.next S).Respects (Balance Generator.held) :=
    Generator.respects_next.mono fun _ _ h ↦ h.1
  exact respects_bracket hnew Generator.closes_close.releases hnext

/-- The generator for the reduct does not outlive the verification. -/
theorem isNeutral_verify (S : Setting) (I : Interpretation) : (verify S I).IsNeutral := by
  refine isNeutral_prepare.bind fun _ ↦ ?_
  split
  · exact respects_ofExcept.bind fun _ ↦ (isNeutral_ground _ I).bind fun _ ↦ respects_pure
  · exact respects_pure

end StableVerifier

/-! ### Verifiers with a session -/

namespace CompleteVerifier

variable {S : Setting}

/-- The number of solvers that the verifier holds. -/
def held (v : CompleteVerifier) : Nat := v.phase.held

/-- The verifier opens its session on its first use and keeps it. -/
theorem respects_use {x : Act NamedSession α} (hx : x.IsNeutral) :
    (use S x).Respects (Retains held fun _ ↦ 1) :=
  (Lifecycle.respects_use (NamedSession.opens_acquire (Session.isNeutral_perform _)) hx).on
    fun _ _ _ _ h ↦ h

theorem respects_prepare : (prepare S).Respects (Retains held fun _ ↦ 1) :=
  respects_use respects_pure

theorem isNeutral_verifyAt (I : Interpretation) (a : Nat) (s : Status) :
    (verifyAt S I a s).IsNeutral := by
  have hask := NamedSession.isNeutral_satisfiableWith
  refine respects_ofExcept.bind fun fixed ↦ (NamedSession.isNeutral_nameOf a).bind fun name ↦ ?_
  cases s with
  | satisfied => exact (hask _).bind fun _ ↦ respects_pure
  | unsatisfied => exact (hask _).bind fun _ ↦ respects_pure
  | undecided =>
    refine (hask _).bind fun b ↦ ?_
    cases b with
    | true => exact hask _
    | false => exact respects_pure

theorem isNeutral_verifyFrom (I : Interpretation) (as : List (Nat × Status)) :
    (verifyFrom S I as).IsNeutral := by
  induction as with
  | nil => exact respects_pure
  | cons p as ih =>
    refine (isNeutral_verifyAt I p.1 p.2).bind fun b ↦ ?_
    cases b with
    | true => exact ih
    | false => exact respects_pure

/-- **Verification** asks the session that is there. -/
theorem respects_verify (I : Interpretation) :
    (verify S I).Respects (Retains held fun _ ↦ 1) :=
  respects_use (isNeutral_verifyFrom I _)

theorem closes_close : close.Closes held where
  held_eq e v j := NamedSession.closes_close.held_eq e v.phase j
  respects := NamedSession.closes_close.respects.on fun _ _ _ _ h ↦ h

end CompleteVerifier

namespace NaiveVerifier

variable {S : Setting}

/-- The number of solvers that the verifier holds. -/
def held (v : NaiveVerifier) : Nat := v.phase.held

/-- A session with the encoding of conflict-freeness. -/
theorem opens_start : (start S).Opens fun _ ↦ 1 :=
  Opens.map (opens_handOver (Session.opens_acquire _) Session.releases_release
    ((Session.isNeutral_perform _).balance 1))

theorem respects_use {x : Act Session α} (hx : x.IsNeutral) :
    (use S x).Respects (Retains held fun _ ↦ 1) :=
  (Lifecycle.respects_use opens_start hx).on fun _ _ _ _ h ↦ h

theorem respects_prepare : (prepare S).Respects (Retains held fun _ ↦ 1) :=
  respects_use respects_pure

/-- Guards come and go as variables and clauses of the one session. -/
theorem isNeutral_isMaximal (I : Interpretation) : (isMaximal S I).IsNeutral := by
  refine Session.isNeutral_fresh.bind fun toggle ↦ (Session.isNeutral_add _).bind fun _ ↦ ?_
  refine (Session.isNeutral_assume _).bind fun _ ↦ Session.isNeutral_satisfiable.bind fun _ ↦ ?_
  exact (Session.isNeutral_add _).bind fun _ ↦ respects_pure

/-- What the verifier remembers of the last candidate is no solver. -/
theorem respects_remember {f : NaiveVerifier → NaiveVerifier} (h : ∀ v, (f v).held = v.held) :
    (modify f).Respects (Retains held fun _ ↦ 1) := by
  refine respects_modify fun v j ↦ ⟨?_, Nat.le_of_eq (h v).symm, rfl⟩
  rw [Balance, h]

theorem respects_verify (I : Interpretation) :
    (verify S I).Respects (Retains held fun _ ↦ 1) := by
  refine (respects_use (isNeutral_isMaximal I)).bind fun _ ↦
    (respects_remember ?_).bind fun _ ↦ respects_pure
  exact fun _ ↦ rfl

theorem respects_prune (I : Interpretation) :
    (prune S I).Respects (Retains held fun _ ↦ 1) := by
  refine respects_get.bind fun v ↦ ?_
  split
  · refine (respects_remember ?_).bind fun _ ↦ respects_pure
    exact fun _ ↦ rfl
  · exact respects_pure

theorem closes_close : close.Closes held where
  held_eq e v j := Session.closes_close.held_eq e v.phase j
  respects := Session.closes_close.respects.on fun _ _ _ _ h ↦ h

end NaiveVerifier

/-! ### Processors -/

namespace Maximizer

/-- Each step of a climb is verified in a session of its own, beside that of the climb. -/
theorem isNeutral_climb (S : Setting) (n steps : Nat) (I : Interpretation) :
    (climb S n steps I).IsNeutral := by
  induction n generalizing steps I with
  | zero => exact respects_throw
  | succ n ih =>
    refine (Session.isNeutral_witness _).first.bind fun vs? ↦ ?_
    cases vs? with
    | none => exact respects_pure
    | some vs =>
      refine (AdmissibleVerifier.isNeutral_verify S _).second.bind fun b ↦ ?_
      cases b with
      | true => exact (Session.isNeutral_perform _).first.bind fun _ ↦ ih _ _
      | false => exact (Session.isNeutral_add _).first.bind fun _ ↦ ih _ _

theorem isNeutral_prepare (S : Setting) (I : Interpretation) : (prepare S I).IsNeutral := by
  have htypes : (on Maximizer.types (fun m types ↦ { m with types })
      (keptLinkTypes S.framework)).IsNeutral := (isNeutral_keptLinkTypes _).on
  refine (Session.isNeutral_perform _).first.bind fun _ ↦ htypes.second.bind fun types ↦ ?_
  refine respects_get.bind fun p ↦ IsNeutral.first ?_
  exact (S.isNeutral_addBipolar _ _).bind fun _ ↦ Session.isNeutral_perform _

/-- **A maximizer holds no solver**: its session lasts as long as one candidate. -/
theorem isNeutral_process (S : Setting) (I : Interpretation) : (process S I).IsNeutral := by
  have hclimb : (on (fun p : Session × Maximizer ↦ (p.1, p.2.admissible))
      (fun p q ↦ (q.1, { p.2 with admissible := q.2 })) (climb S S.budget 0 I)).IsNeutral :=
    (isNeutral_climb S _ 0 I).on
  refine (Session.isNeutral_beside ((isNeutral_prepare S I).bind fun _ ↦ hclimb)).bind ?_
  exact fun _ ↦ isNeutral_log.bind fun _ ↦ respects_pure

end Maximizer

namespace Processor

theorem isNeutral_process (S : Setting) (I : Interpretation) : (process S I).IsNeutral := by
  intro e v j
  cases v with
  | maximizer m => exact Maximizer.isNeutral_process S I e m j
  | function f => exact refl (Processor.function f, j)

/-- A processor tells the generator of a pipeline, and holds no solver itself. -/
theorem respects_apply (S : Setting) (I : Interpretation) :
    (apply S I).Respects (Retains (fun p ↦ p.1.held) fun _ ↦ 1) := by
  refine (isNeutral_process S I).beside.bind fun J ↦ respects_get.bind fun p ↦ ?_
  exact (Generator.respects_use (Session.isNeutral_perform _)).first.bind fun _ ↦ respects_pure

/-- A processor has nothing to release, and its closing does not fail. -/
theorem run_close (e : Engine) (q : Processor) (j : Journal) :
    ∃ q', close.run e q j = ⟨.ok (), q', j⟩ := by
  cases q with
  | maximizer m => exact ⟨_, rfl⟩
  | function f => exact ⟨_, rfl⟩

end Processor

/-! ### Pruners -/

namespace Pruner

/-- A pruner tells the generator of a pipeline, and holds no solver itself. -/
theorem respects_prune (S : Setting) :
    (prune S).Respects (Retains (fun p ↦ p.1.held) fun _ ↦ 1) := by
  have htypes : (linkTypes S).IsNeutral := (isNeutral_keptLinkTypes S.framework).on
  refine Generator.respects_prepare.first.bind fun _ ↦ htypes.beside.bind fun types ↦ ?_
  refine respects_get.bind fun p ↦ ?_
  exact (Generator.respects_use (S.isNeutral_addBipolar types p.2.k)).first

end Pruner

/-! ### Verifiers -/

namespace Verifier

/-- The number of solvers that a verifier holds. -/
def held : Verifier → Nat
  | complete v => v.held
  | naive v => v.held
  | admissible _ | preferred _ | stable _ => 0

/-- The number of solvers that a verifier holds while it is in use. -/
def capacity : Verifier → Nat
  | complete _ | naive _ => 1
  | admissible _ | preferred _ | stable _ => 0

/-- A verifier holds at most what it holds in use. -/
theorem held_le (v : Verifier) : v.held ≤ v.capacity := by
  cases v with
  | complete v => exact Lifecycle.held_le v.phase
  | naive v => exact Lifecycle.held_le v.phase
  | admissible _ | preferred _ | stable _ => exact Nat.le_refl 0

theorem respects_prepare (S : Setting) : (prepare S).Respects (Retains held capacity) := by
  intro e v j
  cases v with
  | admissible v => exact AdmissibleVerifier.isNeutral_prepare.retains 0 0 e v j
  | preferred v => exact PreferredVerifier.isNeutral_prepare.retains 0 0 e v j
  | stable v => exact StableVerifier.isNeutral_prepare.retains 0 0 e v j
  | complete v => exact CompleteVerifier.respects_prepare (S := S) e v j
  | naive v => exact NaiveVerifier.respects_prepare (S := S) e v j

/-- A verifier that was prepared is in use. -/
theorem held_of_run_prepare {S : Setting} {e : Engine} {v : Verifier} {j : Journal}
    (h : ((prepare S).run e v j).result = .ok ()) :
    ((prepare S).run e v j).state.held = v.capacity := by
  cases v with
  | admissible _ | preferred _ | stable _ => rfl
  | complete v => exact Lifecycle.held_of_run_use h
  | naive v => exact Lifecycle.held_of_run_use h

/-- Verifying releases nothing that the verifier held. -/
theorem respects_verify (S : Setting) (I : Interpretation) :
    (verify S I).Respects (Retains held capacity) := by
  intro e v j
  cases v with
  | admissible v => exact (AdmissibleVerifier.isNeutral_verify S I).retains 0 0 e v j
  | preferred v => exact (PreferredVerifier.isNeutral_verify S I).retains 0 0 e v j
  | stable v => exact (StableVerifier.isNeutral_verify S I).retains 0 0 e v j
  | complete v => exact CompleteVerifier.respects_verify (S := S) I e v j
  | naive v => exact NaiveVerifier.respects_verify (S := S) I e v j

theorem respects_prune (S : Setting) (I : Interpretation) :
    (prune S I).Respects (Retains held capacity) := by
  intro e v j
  cases v with
  | preferred v => exact (PreferredVerifier.isNeutral_prune S I).retains 0 0 e v j
  | naive v => exact NaiveVerifier.respects_prune (S := S) I e v j
  | admissible v => exact refl (admissible v, j)
  | stable v => exact refl (stable v, j)
  | complete v => exact refl (complete v, j)

/-- **Closing** leaves a verifier of any criterion without solvers. -/
theorem closes_close : close.Closes held where
  held_eq e v j := by
    cases v with
    | admissible _ | preferred _ | stable _ => rfl
    | complete v => exact CompleteVerifier.closes_close.held_eq e v j
    | naive v => exact NaiveVerifier.closes_close.held_eq e v j
  respects e v j := by
    cases v with
    | admissible _ | preferred _ | stable _ => rfl
    | complete v => exact CompleteVerifier.closes_close.respects e v j
    | naive v => exact NaiveVerifier.closes_close.respects e v j

/-- Closing a verifier leaves it a verifier of the same criterion. -/
theorem capacity_close (e : Engine) (v : Verifier) (j : Journal) :
    (close.run e v j).state.capacity = v.capacity := by
  cases v <;> rfl

end Verifier

end Dialectical
