import Dialectical.Proofs.Generators
import Mathlib.Order.Defs.Unbundled

/-!
# Accounting for solvers

The journal counts the solvers that were opened and those that were released. Whatever an action
does, and whether it ends with a value or with a fault, the difference of the two is the number of
solvers in its hands: those that its state holds. This is an equation between two moments of a run
(`Balance`), so it is carried through a run by transitivity alone (`Act.Respects.bind`), and nothing
is asked of the engine. In particular it may give up, at any call.

Most actions have nothing in their hands for longer than they run (`Act.IsNeutral`): what they open
they open in a bracket, and a bracket balances if it releases what it acquires
(`Act.respects_bracketBeside`). What holds a solver from one action to the next is a component that
opens on first use (`Lifecycle.held`). It releases nothing before it is closed (`Retains`), and what
it has is known from there: as much as it can hold, once it was used (`Lifecycle.held_of_run_use`).
-/

namespace Dialectical

variable {σ τ α β : Type}

/-! ### Runs as relations -/

/-- The number of solvers that a state holds accounts for those that were opened and not released
between two moments, which are states with journals. -/
def Balance (held : σ → Nat) (m m' : σ × Journal) : Prop :=
  m'.2.opened + m.2.released + held m.1 = m.2.opened + m'.2.released + held m'.1

instance (held : σ → Nat) : IsPreorder (σ × Journal) (Balance held) where
  refl _ := rfl
  trans _ _ _ h h' := by
    unfold Balance at *
    omega

/-- As `Balance`, and nothing that the state held was released. The number of solvers that the state
can hold stays what it was. -/
def Retains (held capacity : σ → Nat) (m m' : σ × Journal) : Prop :=
  Balance held m m' ∧ held m.1 ≤ held m'.1 ∧ capacity m'.1 = capacity m.1

instance (held capacity : σ → Nat) : IsPreorder (σ × Journal) (Retains held capacity) where
  refl _ := ⟨rfl, Nat.le_refl _, rfl⟩
  trans _ _ _ h h' := ⟨trans_of _ h.1 h'.1, Nat.le_trans h.2.1 h'.2.1, h'.2.2.trans h.2.2⟩

namespace Act

/-- Every run of the action, whatever the engine answers and however it ends, relates the moment
before to the moment after. -/
def Respects (x : Act σ α) (r : σ × Journal → σ × Journal → Prop) : Prop :=
  ∀ e s j, r (s, j) ((x.run e s j).state, (x.run e s j).journal)

section

variable {r : σ × Journal → σ × Journal → Prop}

/-- A relation may be replaced by one that says less. -/
theorem Respects.mono {x : Act σ α} {r' : σ × Journal → σ × Journal → Prop} (hx : x.Respects r)
    (h : ∀ m m', r m m' → r' m m') : x.Respects r' :=
  fun e s j ↦ h _ _ (hx e s j)

theorem respects_modify {f : σ → σ} (h : ∀ s j, r (s, j) (f s, j)) : (modify f).Respects r :=
  fun _ s j ↦ h s j

theorem respects_record {f : Journal → Journal} (h : ∀ s j, r (s, j) (s, f j)) :
    (record f).Respects r :=
  fun _ s j ↦ h s j

/-- Acting on a part, if what relates the parts relates the wholes. -/
theorem Respects.on {x : Act τ α} {q : τ × Journal → τ × Journal → Prop} {part : σ → τ}
    {put : σ → τ → σ} (hx : x.Respects q)
    (h : ∀ s j t i, q (part s, j) (t, i) → r (s, j) (put s t, i)) : (on part put x).Respects r :=
  fun e s j ↦ h s j _ _ (hx e (part s) j)

variable [IsPreorder (σ × Journal) r]

/-- Actions that change neither the state nor the journal respect every preorder. -/
theorem respects_pure {a : α} : (pure a : Act σ α).Respects r := fun _ s j ↦ refl (s, j)

theorem respects_get : (get : Act σ σ).Respects r := fun _ s j ↦ refl (s, j)

theorem respects_throw {fault : Fault} : (throw fault : Act σ α).Respects r :=
  fun _ s j ↦ refl (s, j)

theorem respects_ofExcept {x : Except Fault α} : (ofExcept x : Act σ α).Respects r :=
  fun _ s j ↦ refl (s, j)

/-- **Sequencing.** A fault ends a run at a moment that is related, too. -/
theorem Respects.bind {x : Act σ α} {f : α → Act σ β} (hx : x.Respects r)
    (hf : ∀ a, (f a).Respects r) : (x >>= f).Respects r := by
  intro e s j
  have hxj := hx e s j
  rw [run_bind]
  rcases hrun : x.run e s j with ⟨fault | a, s', j'⟩ <;> rw [hrun] at hxj
  · exact hxj
  · exact trans_of r hxj (hf a e s' j')

/-- A loop respects what each of its turns respects. -/
theorem respects_forM {as : List β} {f : β → Act σ PUnit} (h : ∀ a, (f a).Respects r) :
    (as.forM f).Respects r := by
  induction as with
  | nil => exact respects_pure
  | cons a as ih =>
    show (f a >>= fun _ ↦ as.forM f).Respects r
    exact (h a).bind fun _ ↦ ih

theorem respects_mapM {as : List β} {f : β → Act σ α} (h : ∀ a, (f a).Respects r) :
    (as.mapM f).Respects r := by
  induction as with
  | nil => exact respects_pure
  | cons a as ih =>
    rw [List.mapM_cons]
    exact (h a).bind fun _ ↦ ih.bind fun _ ↦ respects_pure

/-- And so does asking again until there is no more. -/
theorem respects_collect {x : Act σ (Option α)} (hx : x.Respects r) (n : Nat) :
    (x.collect n).Respects r := by
  induction n with
  | zero => exact respects_throw
  | succ n ih =>
    refine hx.bind fun a? ↦ ?_
    cases a? with
    | none => exact respects_pure
    | some a => exact ih.bind fun _ ↦ respects_pure

end

/-! ### Brackets -/

/-- The action opens the solvers that its value holds. If it ends with a fault there are none. -/
def Opens (x : Act Unit τ) (held : τ → Nat) : Prop :=
  ∀ e s j, (x.run e s j).journal.opened + j.released = j.opened + (x.run e s j).journal.released +
    match (x.run e s j).result with
    | .ok t => held t
    | .error _ => 0

/-- The action releases the solvers that the state holds. -/
def Releases (x : Act τ Unit) (held : τ → Nat) : Prop :=
  ∀ e t j,
    (x.run e t j).journal.opened + j.released + held t = j.opened + (x.run e t j).journal.released

/-- The action leaves a state that holds no solver any more. -/
structure Closes (x : Act τ Unit) (held : τ → Nat) : Prop where
  held_eq : ∀ e t j, held (x.run e t j).state = 0
  respects : x.Respects (Balance held)

/-- What holds no solver after an action that balances has had them released. -/
theorem Closes.releases {x : Act τ Unit} {held : τ → Nat} (h : x.Closes held) :
    x.Releases held := by
  intro e t j
  have hbalance := h.respects e t j
  rwa [Balance, h.held_eq] at hbalance

/-- Closing that does not fail, by its run. -/
theorem Closes.exists_run {x : Act τ Unit} {held : τ → Nat} {e : Engine} (h : x.Closes held)
    (hx : x.IsQuiet e) (t : τ) (j : Journal) :
    ∃ t' j', x.run e t j = ⟨.ok (), t', j'⟩ ∧ held t' = 0 ∧
      j'.opened + j.released + held t = j.opened + j'.released := by
  obtain ⟨_, t', j', hrun, -⟩ := (hx t).exists_run j
  have hheld := h.held_eq e t j
  have hbalance := h.releases e t j
  rw [hrun] at hheld hbalance
  exact ⟨t', j', hrun, hheld, hbalance⟩

variable {held : σ → Nat} {heldBeside : τ → Nat}

/-- **Brackets balance**, also if the action between ends with a fault. -/
theorem respects_bracketBeside {acquire : Act Unit τ} {release : Act τ Unit}
    {x : Act (τ × σ) α} (hacquire : acquire.Opens heldBeside)
    (hrelease : release.Releases heldBeside)
    (hx : x.Respects (Balance fun p ↦ heldBeside p.1 + held p.2)) :
    (bracketBeside acquire release x).Respects (Balance held) := by
  intro e s j
  have hopen := hacquire e () j
  rcases hrun : acquire.run e () j with ⟨fault | t, u, j'⟩ <;> rw [hrun] at hopen
  · simp only [bracketBeside, hrun, Balance]
    exact congrArg (· + held s) hopen
  · have hbalance := hx e (t, s) j'
    have hclose := hrelease e (x.run e (t, s) j').state.1 (x.run e (t, s) j').journal
    simp only [bracketBeside, hrun, Balance] at hbalance ⊢
    simp only at hopen
    omega

/-- A bracket whose inner action does not see the state. -/
theorem respects_bracket {acquire : Act Unit τ} {release : Act τ Unit} {x : Act τ α}
    (hacquire : acquire.Opens heldBeside) (hrelease : release.Releases heldBeside)
    (hx : x.Respects (Balance heldBeside)) :
    (bracket acquire release x).Respects (Balance held) := by
  refine respects_bracketBeside hacquire hrelease (hx.on fun p j t i h ↦ ?_)
  simp only [Balance] at h ⊢
  omega

/-- What is handed over was opened. -/
theorem opens_handOver {acquire : Act Unit τ} {release : Act τ Unit} {x : Act τ α}
    (hacquire : acquire.Opens heldBeside) (hrelease : release.Releases heldBeside)
    (hx : x.Respects (Balance heldBeside)) :
    (handOver acquire release x : Act Unit (α × τ)).Opens fun p ↦ heldBeside p.2 := by
  intro e s j
  have hopen := hacquire e () j
  rcases hrun : acquire.run e () j with ⟨fault | t, u, j'⟩ <;> rw [hrun] at hopen
  · simp only [handOver, hrun]
    exact hopen
  · have hbalance := hx e t j'
    simp only [handOver, hrun]
    rcases hrunx : x.run e t j' with ⟨fault | a, t', j''⟩ <;> rw [hrunx] at hbalance
    · have hclose := hrelease e t' j''
      simp only [Balance] at hbalance hopen ⊢
      omega
    · simp only [Balance] at hbalance hopen ⊢
      omega

/-- The value may be put into another form. -/
theorem Opens.map {x : Act Unit α} {f : α → τ} (hx : x.Opens fun a ↦ heldBeside (f a)) :
    (do return f (← x) : Act Unit τ).Opens heldBeside := by
  intro e s j
  have hopen := hx e s j
  rw [run_bind]
  rcases hrun : x.run e s j with ⟨fault | a, u, j'⟩ <;> rw [hrun] at hopen <;> exact hopen

/-- A value that is threaded through a list, if the shared state is all that holds solvers. -/
theorem respects_through {n : Nat} {x : α → Act (σ × τ) α}
    (hx : ∀ a, (x a).Respects (Retains (fun p ↦ held p.1) fun _ ↦ n)) (a : α) :
    (through x a).Respects (Retains (fun p ↦ held p.1) fun _ ↦ n) := by
  rintro e ⟨s, ts⟩ j
  show Retains _ _ _ ((through.go x e a s ts j).state, (through.go x e a s ts j).journal)
  induction ts generalizing a s j with
  | nil => exact refl _
  | cons t ts ih =>
    have hxj := hx a e (s, t) j
    rw [through.go]
    rcases hrun : (x a).run e (s, t) j with ⟨fault | b, ⟨s', t'⟩, j'⟩ <;> rw [hrun] at hxj
    · exact hxj
    · have hfirst : Retains (fun p : σ × List τ ↦ held p.1) (fun _ ↦ n)
          ((s, t :: ts), j) ((s', ts), j') := hxj
      exact trans_of _ hfirst (ih b s' j')

/-! ### Neutral actions -/

/-- After the action as many solvers are open as before, at whatever state. -/
def IsNeutral (x : Act σ α) : Prop := x.Respects (Balance fun _ ↦ 0)

/-- A state that holds as many solvers after a neutral action as before is balanced by it. -/
theorem IsNeutral.balance {x : Act σ α} (hx : x.IsNeutral) (n : Nat) :
    x.Respects (Balance fun _ ↦ n) :=
  fun e s j ↦ congrArg (· + n) (hx e s j)

/-- And nothing that it held was released. -/
theorem IsNeutral.retains {x : Act σ α} (hx : x.IsNeutral) (n c : Nat) :
    x.Respects (Retains (fun _ ↦ n) fun _ ↦ c) :=
  fun e s j ↦ ⟨hx.balance n e s j, Nat.le_refl _, rfl⟩

/-- Neutral actions are neutral wherever they act. -/
theorem IsNeutral.on {x : Act τ α} {part : σ → τ} {put : σ → τ → σ} (hx : x.IsNeutral) :
    (on part put x).IsNeutral :=
  fun e s j ↦ hx e (part s) j

theorem IsNeutral.first {x : Act σ α} (hx : x.IsNeutral) :
    (Act.first x : Act (σ × τ) α).IsNeutral :=
  hx.on

theorem IsNeutral.second {x : Act τ α} (hx : x.IsNeutral) :
    (Act.second x : Act (σ × τ) α).IsNeutral :=
  hx.on

/-- Acting on a state that holds solvers, beside one that holds none. -/
theorem Respects.first {n : Nat} {x : Act σ α} (hx : x.Respects (Retains held fun _ ↦ n)) :
    (Act.first x : Act (σ × τ) α).Respects (Retains (fun p ↦ held p.1) fun _ ↦ n) :=
  hx.on fun _ _ _ _ h ↦ h

/-- A neutral action beside a state that holds solvers. -/
theorem IsNeutral.beside {n : Nat} {x : Act τ α} (hx : x.IsNeutral) :
    (Act.second x : Act (σ × τ) α).Respects (Retains (fun p ↦ held p.1) fun _ ↦ n) :=
  fun e p j ↦ hx.retains (held p.1) n e p.2 j

/-- Log records and changes of a state open no solvers. -/
theorem isNeutral_log {l : Level} {c : Component} {m : String} :
    (log l c m : Act σ Unit).IsNeutral :=
  respects_record fun _ _ ↦ rfl

theorem isNeutral_modify {f : σ → σ} : (modify f).IsNeutral := respects_modify fun _ _ ↦ rfl

end Act

open Act

/-! ### Solvers and sessions -/

namespace Solver

/-- What a solver is told or asked is noted, and no solver is opened or released. -/
theorem isNeutral_note {call : Nat → Event} (h : ∀ n (j : Journal),
    (j.note (call n)).opened = j.opened ∧ (j.note (call n)).released = j.released) :
    (note call).IsNeutral := by
  refine respects_get.bind fun s ↦ respects_record fun s' j ↦ ?_
  obtain ⟨hopened, hreleased⟩ := h s.name j
  rw [Balance, hopened, hreleased]

theorem isNeutral_reserve (n : Nat) : (reserve n).IsNeutral :=
  isNeutral_modify.bind fun _ ↦ isNeutral_note fun _ _ ↦ ⟨rfl, rfl⟩

theorem isNeutral_add (c : Clause) : (add c).IsNeutral :=
  isNeutral_modify.bind fun _ ↦ isNeutral_note fun _ _ ↦ ⟨rfl, rfl⟩

/-- Listeners only write down that the solver was called and that it answered. -/
theorem isNeutral_notifyStart (n m : Nat) (l : Listener) : (notifyStart n m l).IsNeutral := by
  cases l with
  | recorder => exact respects_record fun _ _ ↦ rfl
  | logger => exact isNeutral_log

theorem isNeutral_notifyFinish (verdict : Option Bool) (l : Listener) :
    (notifyFinish verdict l).IsNeutral := by
  cases l with
  | recorder => exact respects_record fun _ _ ↦ rfl
  | logger => exact isNeutral_log

/-- A call notifies the listeners, consults the solver and notifies them again. -/
theorem isNeutral_call (ls : List Literal) : (call ls).IsNeutral := by
  refine respects_get.bind fun s ↦ ?_
  refine (respects_forM (isNeutral_notifyStart _ _)).bind fun _ ↦ ?_
  have hcover : (cover ls).IsNeutral := fun _ _ _ ↦ rfl
  have hconsult : (consult ls).IsNeutral := fun _ _ _ ↦ rfl
  refine hcover.bind fun _ ↦ hconsult.bind fun answer ↦ ?_
  exact (respects_forM (isNeutral_notifyFinish _)).bind fun _ ↦ respects_pure

/-- A solver that is asked stays open, whatever it answers. -/
theorem isNeutral_solve (ls : List Literal) : (solve ls).IsNeutral := by
  have hrefused : refused.IsNeutral := fun _ _ _ ↦ rfl
  have hnote : ∀ answer : Answer, (do
      note (.solved · ls answer.verdict)
      return answer : Act Solver Answer).IsNeutral := fun answer ↦
    (isNeutral_note fun _ _ ↦ ⟨rfl, rfl⟩).bind fun _ ↦ respects_pure
  refine hrefused.bind fun b ↦ ?_
  cases b with
  | true => exact respects_pure.bind hnote
  | false => exact (isNeutral_call ls).bind hnote

/-- A solver that is acquired is one more open solver. -/
theorem opens_acquire : (acquire : Act Unit Solver).Opens fun _ ↦ 1 := by
  intro e s j
  show j.opened + 1 + j.released = j.opened + j.released + 1
  omega

/-- And one less after its release. -/
theorem releases_release : release.Releases fun _ ↦ 1 := by
  intro e s j
  show j.opened + j.released + 1 = j.opened + (j.released + 1)
  omega

end Solver

namespace Session

theorem isNeutral_add (c : Clause) : (add c).IsNeutral := (Solver.isNeutral_add c).on

theorem isNeutral_reserve (n : Nat) : (reserve n).IsNeutral := (Solver.isNeutral_reserve n).on

theorem isNeutral_assume (ls : List Literal) : (assume ls).IsNeutral := isNeutral_modify

/-- Assumptions are used up before the solver is asked; that does not matter here. -/
theorem isNeutral_check : check.IsNeutral :=
  respects_get.bind fun s ↦ isNeutral_modify.bind fun _ ↦ (Solver.isNeutral_solve s.pending).on

theorem isNeutral_satisfiable : satisfiable.IsNeutral :=
  isNeutral_check.bind fun _ ↦ respects_ofExcept

theorem isNeutral_witness (vs : List Variable) : (witness vs).IsNeutral :=
  isNeutral_check.bind fun _ ↦ respects_ofExcept.bind fun _ ↦ respects_pure

theorem isNeutral_fresh : fresh.IsNeutral :=
  respects_get.bind fun _ ↦ (isNeutral_reserve _).bind fun _ ↦ respects_pure

/-- The requests of an encoder add clauses and reserve variables, and nothing else. -/
theorem isNeutral_perform (x : Encoder α) : (perform x).IsNeutral := by
  refine respects_get.bind fun s ↦ (respects_forM fun d ↦ ?_).bind fun _ ↦ respects_ofExcept
  cases d with
  | clause c => exact isNeutral_add c
  | reserve n => exact isNeutral_reserve n

/-- A session holds one solver, also after variables were reserved in it. -/
theorem opens_acquire (n : Nat) : (acquire n).Opens fun _ ↦ 1 :=
  Opens.map (opens_handOver Solver.opens_acquire Solver.releases_release
    ((Solver.isNeutral_reserve n).balance 1))

theorem releases_release : release.Releases fun _ ↦ 1 :=
  fun e s j ↦ Solver.releases_release e s.solver j

/-- **A session for the duration of an action** is released, however the action ends. -/
theorem isNeutral_during {n : Nat} {x : Act Session α} (hx : x.IsNeutral) :
    (during n x : Act σ α).IsNeutral :=
  respects_bracket (opens_acquire n) releases_release (hx.balance 1)

/-- A session beside a state that holds no solver. -/
theorem isNeutral_beside {n : Nat} {x : Act (Session × σ) α} (hx : x.IsNeutral) :
    (bracketBeside (acquire n) release x).IsNeutral :=
  respects_bracketBeside (opens_acquire n) releases_release (hx.balance 1)

end Session

namespace NamedSession

theorem isNeutral_nameOf (a : Nat) : (nameOf a).IsNeutral :=
  respects_get.bind fun _ ↦ respects_ofExcept

theorem isNeutral_satisfiableWith (ls : List Literal) : (satisfiableWith ls).IsNeutral := by
  have hask : (do Session.assume ls; Session.satisfiable : Act Session Bool).IsNeutral :=
    (Session.isNeutral_assume ls).bind fun _ ↦ Session.isNeutral_satisfiable
  exact hask.on

/-- A session with names holds one solver. If the names cannot be given it is released again. -/
theorem opens_acquire {n : Nat} {x : Act Session (List Literal)} (hx : x.IsNeutral) :
    (acquire n x).Opens fun _ ↦ 1 :=
  Opens.map (opens_handOver (Session.opens_acquire n) Session.releases_release (hx.balance 1))

theorem releases_release : release.Releases fun _ ↦ 1 :=
  fun e s j ↦ Session.releases_release e s.session j

end NamedSession

/-! ### Components that open on first use -/

namespace Lifecycle

variable {start : Act Unit τ} {release : Act τ Unit} {fault : Fault}

/-- The number of solvers that a component holds whose session is all that it keeps. -/
def held : Lifecycle τ → Nat
  | opened _ => 1
  | unopened | closed => 0

/-- One session is all that a component with a lifecycle can hold. -/
theorem held_le (p : Lifecycle τ) : p.held ≤ 1 := by
  cases p <;> simp [held]

/-- **Using** a component opens its session, if it was not opened before, and keeps it. -/
theorem respects_use (hstart : start.Opens fun _ ↦ 1) {x : Act τ α} (hx : x.IsNeutral) :
    (use start fault x).Respects (Retains held fun _ ↦ 1) := by
  intro e p j
  cases p with
  | closed => exact refl (closed, j)
  | opened t => exact ⟨hx.balance 1 e t j, Nat.le_refl _, rfl⟩
  | unopened =>
    have hopen := hstart e () j
    simp only [use, run_bind, run_get, lift]
    rcases hrun : start.run e () j with ⟨f | t, u, i⟩ <;> rw [hrun] at hopen
    · exact ⟨hopen, Nat.le_refl _, rfl⟩
    · have hxi := hx e t i
      refine ⟨?_, Nat.zero_le _, rfl⟩
      simp only [Balance, into, Outcome.mapState, held] at hopen hxi ⊢
      omega

/-- A component that was used is in use. -/
theorem held_of_run_use {x : Act τ α} {e : Engine} {p : Lifecycle τ} {j : Journal} {a : α}
    (h : ((use start fault x).run e p j).result = .ok a) :
    ((use start fault x).run e p j).state.held = 1 := by
  cases p with
  | closed => exact absurd h (by simp [use])
  | opened t => rfl
  | unopened =>
    simp only [use, run_bind, run_get, lift] at h ⊢
    rcases hrun : start.run e () j with ⟨f | t, u, i⟩ <;> rw [hrun] at h
    · exact absurd h (by simp [Outcome.mapState])
    · rfl

/-- **Closing** it releases the session, if there is one. -/
theorem closes_close (hquiet : ∀ e, release.IsQuiet e) (hrelease : release.Releases fun _ ↦ 1) :
    (close release).Closes held where
  held_eq e p j := by
    obtain ⟨_, p', j', hrun, rfl⟩ := (ensures_close (hquiet e) p).exists_run j
    rw [hrun]
    rfl
  respects := by
    intro e p j
    cases p with
    | unopened => rfl
    | closed => rfl
    | opened t =>
      have hbalance := hrelease e t j
      obtain ⟨_, t', j', hrun, -⟩ := (hquiet e t).exists_run j
      simp only [close, run_bind, run_get, into, hrun] at hbalance ⊢
      exact hbalance

end Lifecycle

/-- Closing a component that keeps a session. -/
theorem Session.closes_close : (Lifecycle.close Session.release).Closes Lifecycle.held :=
  Lifecycle.closes_close (fun _ ↦ isQuiet_release) releases_release

/-- Closing a component that keeps a session with names. -/
theorem NamedSession.closes_close : (Lifecycle.close NamedSession.release).Closes Lifecycle.held :=
  Lifecycle.closes_close (fun _ ↦ isQuiet_release) releases_release

end Dialectical
