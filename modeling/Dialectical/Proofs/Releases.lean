import Dialectical.Proofs.Attempts
import Dialectical.Proofs.Holdings

/-!
# No solver is leaked

What a pipeline holds is settled by its stage (`Pipeline.Accounted`): before it is started at most
what it can hold, while it works exactly that, and nothing after it was closed. Each request keeps
this, however it ends (`Pipeline.respects_next`, `Pipeline.respects_close`), so it is kept by any
number of them, and with the balance of what was opened and released it gives the number of open
solvers (`Reasoner.live_of_requests`).

Three facts carry it. A search releases nothing (`Pipeline.respects_search`), so a pipeline that
holds all it can still does so after a search that a fault cut short. A start that ended well has
opened the generator and the verifier (`Pipeline.held_of_run_start`). And closing fails at no stage.
-/

namespace Dialectical

open Act

variable {σ α β : Type} {e : Engine} {S : Setting}

/-! ### Attempts -/

/-- What an action respects it respects also when its fault is caught. -/
theorem Act.Respects.attempt {x : Act σ α} {r : σ × Journal → σ × Journal → Prop}
    (hx : x.Respects r) : x.attempt.Respects r :=
  fun e s j ↦ hx e s j

/-- Attempts are all made. -/
theorem Act.exists_run_mapM_attempt (x : β → Act σ α) (bs : List β) (e : Engine) (s : σ)
    (j : Journal) : ∃ rs s' j', (bs.mapM fun b ↦ (x b).attempt).run e s j = ⟨.ok rs, s', j'⟩ := by
  obtain ⟨rs, s', j', hrun, -⟩ := exists_run_mapM_attempt_of (x := x) (e := e) (s := s)
    (Φ := fun _ _ ↦ True) (fun _ _ _ _ _ ↦ trivial) [] trivial bs j
  exact ⟨rs, s', j', hrun⟩

/-- A sequence that ended with a value, taken apart. -/
theorem Act.exists_of_run_bind {x : Act σ α} {f : α → Act σ β} {s : σ} {j : Journal} {b : β}
    (h : ((x >>= f).run e s j).result = .ok b) :
    ∃ a s' j', x.run e s j = ⟨.ok a, s', j'⟩ ∧ ((f a).run e s' j').result = .ok b ∧
      (x >>= f).run e s j = (f a).run e s' j' := by
  rw [run_bind] at h
  rcases hrun : x.run e s j with ⟨fault | a, s', j'⟩ <;> rw [hrun] at h
  · exact absurd h (by simp)
  · exact ⟨a, s', j', rfl, h, by rw [run_bind, hrun]⟩

/-- What is held at the end was opened and not released, if nothing was held at the beginning. -/
theorem Balance.live_eq {held : σ → Nat} {s s' : σ} {j j' : Journal}
    (h : Balance held (s, j) (s', j')) (hs : held s = 0) (hj : j.released ≤ j.opened) :
    j'.live = j.live + held s' := by
  simp only [Balance, hs] at h
  simp only [Journal.live]
  omega

/-! ### Stages -/

/-- A stage, and one that it leads to unless the pipeline is closed. -/
def Stage.LeadsTo (s s' : Stage) : Prop := s ≠ .done → s' ≠ .done

instance : IsPreorder Stage Stage.LeadsTo where
  refl _ := id
  trans _ _ _ h h' := h' ∘ h

namespace Pipeline

/-! ### What a pipeline holds -/

/-- The number of solvers that a pipeline holds. Its processors hold none. -/
def held (p : Pipeline) : Nat := p.generator.held + p.verifier.elim 0 Verifier.held

/-- The number of solvers that a pipeline holds while it works. -/
def capacity (p : Pipeline) : Nat := 1 + p.verifier.elim 0 Verifier.capacity

/-- No pipeline holds more than it can. -/
theorem held_le (p : Pipeline) : p.held ≤ p.capacity := by
  refine Nat.add_le_add (Lifecycle.held_le p.generator.phase) ?_
  cases p.verifier with
  | none => exact le_rfl
  | some v => exact v.held_le

/-- A pipeline holds what its stage says. -/
def Accounted (p : Pipeline) : Prop :=
  match p.stage with
  | .idle => True
  | .generating | .verifying => p.held = p.capacity
  | .done => p.held = 0

/-- A pipeline that is done holds nothing. -/
theorem Accounted.held_eq_zero {p : Pipeline} (h : p.Accounted) (hstage : p.stage = .done) :
    p.held = 0 := by
  rwa [Accounted, hstage] at h

/-- And one that generates holds all it can. -/
theorem Accounted.held_eq_capacity {p : Pipeline} (h : p.Accounted)
    (hstage : p.stage = .generating) : p.held = p.capacity := by
  rwa [Accounted, hstage] at h

/-- Holding all is in order at every stage but the last. -/
theorem accounted_of_held_eq_capacity {p : Pipeline} (hstage : p.stage ≠ .done)
    (h : p.held = p.capacity) : p.Accounted := by
  unfold Accounted
  split
  · trivial
  · exact h
  · exact h
  · exact absurd ‹_› hstage

/-! ### Acting on the parts -/

/-- Nothing that the pipeline held was released, and its stages are related. -/
def Works (stages : Stage → Stage → Prop) (m m' : Pipeline × Journal) : Prop :=
  Retains held capacity m m' ∧ stages m.1.stage m'.1.stage

/-- Entering a stage moves no solver. -/
theorem respects_enter {stages : Stage → Stage → Prop} {stage : Stage} (h : ∀ s, stages s stage) :
    (enter stage).Respects (Works stages) :=
  respects_modify fun p _ ↦ ⟨⟨rfl, le_rfl, rfl⟩, h p.stage⟩

section

variable {stages : Stage → Stage → Prop} [IsPreorder Stage stages]

instance : IsPreorder (Pipeline × Journal) (Works stages) where
  refl m := ⟨refl m, refl m.1.stage⟩
  trans _ _ _ h h' := ⟨trans_of _ h.1 h'.1, trans_of _ h.2 h'.2⟩

/-- Nothing but the generator changed that can hold a solver. -/
theorem works_of_generator {p p' : Pipeline} {j j' : Journal}
    (h : Retains Generator.held (fun _ ↦ 1) (p.generator, j) (p'.generator, j'))
    (hverifier : p'.verifier = p.verifier) (hstage : p'.stage = p.stage) :
    Works stages (p, j) (p', j') := by
  obtain ⟨hbalance, hle, -⟩ := h
  simp only [Works, Retains, Balance, held, capacity, hverifier, hstage] at hbalance hle ⊢
  exact ⟨⟨by omega, by omega, trivial⟩, refl _⟩

/-- What the generator does moves only the solver of the generator. -/
theorem respects_onGenerator {x : Act Generator α}
    (hx : x.Respects (Retains Generator.held fun _ ↦ 1)) :
    (onGenerator x).Respects (Works stages) :=
  hx.on fun _ _ _ _ h ↦ works_of_generator h rfl rfl

/-- What the verifier does moves only the solvers of the verifier, if there is one. -/
theorem respects_onVerifier {absent : α} {x : Act Verifier α}
    (hx : x.Respects (Retains Verifier.held Verifier.capacity)) :
    (onVerifier absent x).Respects (Works stages) := by
  intro e p j
  cases hv : p.verifier with
  | none =>
    simp only [onVerifier, run_bind, run_get, hv]
    exact refl (p, j)
  | some v =>
    obtain ⟨hbalance, hle, hcapacity⟩ := hx e v j
    simp only [Balance] at hbalance hle hcapacity
    simp only [onVerifier, run_bind, run_get, hv]
    simp only [Works, Retains, Balance, held, capacity, on, Outcome.mapState, hv, Option.elim_some]
    exact ⟨⟨by omega, by omega, by omega⟩, refl _⟩

/-- Processors hold no solvers, wherever they stand. -/
theorem respects_process (place : Place) (I : Interpretation) :
    (process S place I).Respects (Works stages) := by
  refine (respects_through (Processor.respects_apply S) I).on fun _ _ _ _ h ↦ ?_
  cases place with
  | early => exact works_of_generator h rfl rfl
  | late => exact works_of_generator h rfl rfl

theorem respects_log {l : Level} {c : Component} {m : String} :
    (log l c m : Act Pipeline Unit).Respects (Works stages) :=
  respects_record fun p _ ↦ ⟨⟨rfl, le_rfl, rfl⟩, refl p.stage⟩

/-- Having a candidate judged releases nothing. -/
theorem respects_accepts (I : Interpretation) : (accepts S I).Respects (Works stages) :=
  (respects_onVerifier (Verifier.respects_verify S I)).bind fun _ ↦ respects_get.bind fun _ ↦
    respects_log.bind fun _ ↦ respects_pure

/-- Nor does excluding one. -/
theorem respects_prune (I : Interpretation) : (prune S I).Respects (Works stages) :=
  (respects_onVerifier (Verifier.respects_prune S I)).bind fun _ ↦
    respects_onGenerator (Generator.respects_use (Session.isNeutral_perform _))

end

/-! ### Starting -/

/-- **Starting** opens solvers, releases none, and leaves the stage to its caller. -/
theorem respects_start : (start S).Respects (Works Eq) := by
  have hpruners : (on (fun p : Pipeline ↦ (p.generator, p.pruners))
      (fun p q ↦ { p with generator := q.1, pruners := q.2 })
      (through (fun _ ↦ Pruner.prune S) ())).Respects (Works Eq) :=
    (respects_through (fun _ ↦ Pruner.respects_prune S) ()).on
      fun _ _ _ _ h ↦ works_of_generator h rfl rfl
  refine (respects_onGenerator Generator.respects_prepare).bind fun _ ↦ hpruners.bind fun _ ↦ ?_
  refine (respects_onVerifier (Verifier.respects_prepare S)).bind fun _ ↦ ?_
  exact respects_get.bind fun _ ↦ respects_log

/-- A verifier that was prepared has opened all it can hold. -/
theorem held_of_run_prepare_verifier {p : Pipeline} {j : Journal}
    (h : ((onVerifier () (Verifier.prepare S)).run e p j).result = .ok ()) :
    let p' := ((onVerifier () (Verifier.prepare S)).run e p j).state
    p'.generator = p.generator ∧
      p'.verifier.elim 0 Verifier.held = p'.verifier.elim 0 Verifier.capacity := by
  cases hv : p.verifier with
  | none =>
    simp only [onVerifier, run_bind, run_get, hv]
    exact ⟨rfl, by rw [run_pure, hv]; rfl⟩
  | some v =>
    simp only [onVerifier, run_bind, run_get, hv] at h ⊢
    refine ⟨rfl, ?_⟩
    exact (Verifier.held_of_run_prepare h).trans (Verifier.respects_prepare S e v j).2.2.symm

/-- **A start that ended well** has opened everything. -/
theorem held_of_run_start {p : Pipeline} {j : Journal}
    (h : ((start S).run e p j).result = .ok ()) :
    ((start S).run e p j).state.held = ((start S).run e p j).state.capacity := by
  rw [start] at h ⊢
  obtain ⟨_, p₁, j₁, h₁, h, hrun⟩ := exists_of_run_bind h
  rw [hrun]
  obtain ⟨_, p₂, j₂, h₂, h, hrun⟩ := exists_of_run_bind h
  rw [hrun]
  obtain ⟨_, p₃, j₃, h₃, -, hrun⟩ := exists_of_run_bind h
  rw [hrun]
  show p₃.held = p₃.capacity
  -- the generator was opened first, and stays open
  have hprepared : p₁.generator.held = 1 := by
    have hstate : ((Generator.prepare S).run e p.generator j).state = p₁.generator :=
      congrArg (·.state.generator) h₁
    rw [← hstate]
    exact Generator.held_of_run_prepare (congrArg Outcome.result h₁)
  have hgenerator : p₂.generator.held = 1 := by
    let o := (through (fun _ ↦ Pruner.prune S) ()).run e (p₁.generator, p₁.pruners) j₁
    have hstate : o.state.1 = p₂.generator := congrArg (·.state.generator) h₂
    have hle : p₁.generator.held ≤ o.state.1.held :=
      (respects_through (fun _ ↦ Pruner.respects_prune S) () e (p₁.generator, p₁.pruners) j₁).2.1
    rw [hstate, hprepared] at hle
    exact le_antisymm (Lifecycle.held_le p₂.generator.phase) hle
  obtain ⟨hsame, hverifier⟩ := held_of_run_prepare_verifier (congrArg Outcome.result h₃)
  rw [h₃] at hsame hverifier
  rw [held, capacity, hsame, hverifier, hgenerator]

/-! ### Searching -/

/-- **A search** takes candidates until one is accepted, and releases nothing. -/
theorem respects_search (n : Nat) : (search S n).Respects (Works Stage.LeadsTo) := by
  induction n with
  | zero => exact respects_throw
  | succ n ih =>
    have henter : ∀ stage ≠ Stage.done, (enter stage).Respects (Works Stage.LeadsTo) :=
      fun _ h ↦ respects_enter fun _ _ ↦ h
    have hcount : (modify fun p : Pipeline ↦ { p with candidates := p.candidates + 1 }).Respects
        (Works Stage.LeadsTo) := respects_modify fun p _ ↦ ⟨⟨rfl, le_rfl, rfl⟩, id⟩
    refine (henter .generating (by decide)).bind fun _ ↦ ?_
    refine (respects_onGenerator Generator.respects_next).bind fun I? ↦ ?_
    cases I? with
    | none => exact respects_pure
    | some I =>
      refine hcount.bind fun _ ↦ (respects_process .early I).bind fun J ↦ ?_
      refine (henter .verifying (by decide)).bind fun _ ↦ (respects_accepts J).bind fun b ↦ ?_
      cases b with
      | true => exact (respects_process .late J).bind fun _ ↦ respects_pure
      | false => exact (respects_prune J).bind fun _ ↦ ih

/-! ### Closing -/

/-- **Closing the verifier** never fails, and gives back all that it held. -/
theorem exists_run_close_verifier (e : Engine) (p : Pipeline) (j : Journal) : ∃ v? j',
    (onVerifier () Verifier.close).run e p j = ⟨.ok (), { p with verifier := v? }, j'⟩ ∧
    v?.elim 0 Verifier.held = 0 ∧
    v?.elim 0 Verifier.capacity = p.verifier.elim 0 Verifier.capacity ∧
    j'.opened + j.released + p.verifier.elim 0 Verifier.held = j.opened + j'.released := by
  cases hv : p.verifier with
  | none =>
    refine ⟨none, j, ?_, rfl, rfl, rfl⟩
    simp only [onVerifier, run_bind, run_get, hv, run_pure]
    rw [← hv]
  | some v =>
    obtain ⟨v', j', hrun, hheld, hbalance⟩ :=
      Verifier.closes_close.exists_run (Verifier.isQuiet_close (e := e)) v j
    have hcapacity := Verifier.capacity_close e v j
    rw [hrun] at hcapacity
    refine ⟨some v', j', ?_, hheld, hcapacity, hbalance⟩
    simp only [onVerifier, run_bind, run_get, hv, on, hrun, Outcome.mapState]

/-- Closing processors opens and releases nothing. -/
theorem exists_run_closeProcessors (place : Place) (e : Engine) (p : Pipeline) (j : Journal) :
    ∃ ts, (closeProcessors place).run e p j = ⟨.ok (), p.withProcessors ts place, j⟩ := by
  have hgo : ∀ ts, ∃ ts', through.go (fun _ ↦ second Processor.close) e () () ts j =
      ⟨.ok (), ((), ts'), j⟩ := by
    intro ts
    induction ts with
    | nil => exact ⟨[], rfl⟩
    | cons t ts ih =>
      obtain ⟨ts', hrest⟩ := ih
      obtain ⟨t', hrun⟩ := Processor.run_close e t j
      have hfirst : (second Processor.close : Act (Unit × Processor) Unit).run e ((), t) j =
          ⟨.ok (), ((), t'), j⟩ := by
        simp only [second, on, hrun, Outcome.mapState]
      refine ⟨t' :: ts', ?_⟩
      rw [through.go, hfirst]
      simp only [hrest, Outcome.mapState]
  obtain ⟨ts, hts⟩ := hgo (p.processors place)
  refine ⟨ts, ?_⟩
  simp only [closeProcessors, on, through, hts, Outcome.mapState]

/-- **Closing** releases everything, at any stage, and does not fail. -/
theorem exists_run_close {p : Pipeline} (hstage : p.stage ≠ .done) (e : Engine) (j : Journal) :
    ∃ p' j', close.run e p j = ⟨.ok (), p', j'⟩ ∧ p'.stage = .done ∧ p'.held = 0 ∧
      p'.capacity = p.capacity ∧ Balance held (p, j) (p', j') := by
  obtain ⟨g, j₁, hrung, hg, hbalance⟩ :=
    Generator.closes_close.exists_run (Generator.isQuiet_close (e := e)) p.generator j
  have hgenerator : (onGenerator Generator.close).run e p j =
      ⟨.ok (), { p with generator := g }, j₁⟩ := by
    simp only [onGenerator, on, hrung, Outcome.mapState]
  obtain ⟨v?, j₂, hverifier, hv, hcapacity, hbalance'⟩ :=
    exists_run_close_verifier e { p with generator := g } j₁
  obtain ⟨early, hearly⟩ := exists_run_closeProcessors .early e
    { p with generator := g, verifier := v? } j₂
  obtain ⟨late, hlate⟩ := exists_run_closeProcessors .late e
    { p with generator := g, verifier := v?, early := early } j₂
  refine ⟨{ p with generator := g, verifier := v?, early, late, stage := .done },
    j₂.write ⟨.debug, .pipeline, "pipeline closed"⟩, ?_, rfl, ?_, ?_, ?_⟩
  · rw [close, run_bind, run_get]
    simp only [if_pos hstage, run_bind, hgenerator, hverifier, hearly, withProcessors, hlate, enter,
      run_modify, run_log]
  · rw [held, hg, hv]
  · rw [capacity, capacity, hcapacity]
  · simp only [Balance, held, hg, hv] at hbalance hbalance' ⊢
    show j₂.opened + j.released + _ = j.opened + j₂.released + 0
    omega

/-- A pipeline that is done is closed without effect. -/
theorem run_close_of_done {p : Pipeline} (hstage : p.stage = .done) (e : Engine) (j : Journal) :
    close.run e p j = ⟨.ok (), p, j⟩ := by
  rw [close, run_bind, run_get]
  simp only [if_neg (not_not.2 hstage)]
  rfl

/-- **Closing never fails**, and leaves nothing held. -/
theorem Accounted.exists_run_close {p : Pipeline} (hp : p.Accounted) (e : Engine) (j : Journal) :
    ∃ p' j', close.run e p j = ⟨.ok (), p', j'⟩ ∧ p'.held = 0 ∧ Balance held (p, j) (p', j') := by
  by_cases hstage : p.stage = .done
  · exact ⟨p, j, run_close_of_done hstage e j, hp.held_eq_zero hstage, rfl⟩
  · obtain ⟨p', j', hrun, -, hheld, -, hbalance⟩ := Pipeline.exists_run_close hstage e j
    exact ⟨p', j', hrun, hheld, hbalance⟩

/-! ### Requests -/

/-- What a request leaves, however it ends. -/
def Settles (m m' : Pipeline × Journal) : Prop :=
  Balance held m m' ∧ m'.1.capacity = m.1.capacity ∧ (m.1.Accounted → m'.1.Accounted)

instance : IsPreorder (Pipeline × Journal) Settles where
  refl _ := ⟨rfl, rfl, id⟩
  trans _ _ _ h h' := ⟨trans_of _ h.1 h'.1, h'.2.1.trans h.2.1, h'.2.2 ∘ h.2.2⟩

/-- Closing settles what the pipeline holds, however often it is closed. -/
theorem respects_close : close.Respects Settles := by
  intro e p j
  by_cases hstage : p.stage = .done
  · rw [run_close_of_done hstage]
    exact refl (p, j)
  · obtain ⟨p', j', hrun, hdone, hheld, hcapacity, hbalance⟩ := exists_run_close hstage e j
    rw [hrun]
    refine ⟨hbalance, hcapacity, fun _ ↦ ?_⟩
    rwa [Accounted, hdone]

/-- What is left of a request when the pipeline was started. -/
def proceed (S : Setting) : Act Pipeline (Option Interpretation) := do
  match ← search S S.budget with
  | some I =>
    modify fun p ↦ { p with results := p.results + 1, stage := .generating }
    return some I
  | none =>
    let p ← get
    log .info .pipeline
      ("pipeline exhausted after " ++ toString p.candidates ++ " candidates and "
        ++ toString p.results ++ " results")
    close
    return none

/-- **A request by stages.** -/
theorem run_next (S : Setting) (e : Engine) (p : Pipeline) (j : Journal) :
    (next S).run e p j =
      match p.stage with
      | .done => ⟨.ok none, p, j⟩
      | .idle => (start S >>= fun _ ↦ proceed S).run e p j
      | .generating | .verifying => (proceed S).run e p j := by
  rw [next, run_bind, run_get]
  cases hstage : p.stage <;> simp only [hstage] <;> rfl

/-- What a search releases and where it leaves the stage, read off its run. -/
theorem retains_of_run_search {p p' : Pipeline} {I? : Except Fault (Option Interpretation)}
    {j j' : Journal} (hrun : (search S S.budget).run e p j = ⟨I?, p', j'⟩) :
    Retains held capacity (p, j) (p', j') ∧ (p.stage ≠ .done → p'.stage ≠ .done) := by
  have h := respects_search (S := S) S.budget e p j
  rwa [hrun] at h

/-- How a request ends: it settles, and its result shows in the stage. -/
def Ends (m : Pipeline × Journal) (o : Outcome Pipeline (Option Interpretation)) : Prop :=
  Settles m (o.state, o.journal) ∧
    match o.result with
    | .ok (some _) => o.state.stage = .generating
    | .ok none => o.state.stage = .done
    | .error _ => True

/-- A pipeline that works proceeds to a stage that accounts for what it holds. -/
theorem ends_proceed {p : Pipeline} (hstage : p.stage ≠ .done)
    (hp : p.Accounted → p.held = p.capacity) (j : Journal) :
    Ends (p, j) ((proceed S).run e p j) := by
  rw [proceed, run_bind]
  rcases hrun : (search S S.budget).run e p j with ⟨fault | I?, p', j'⟩ <;>
    obtain ⟨⟨hbalance, hle, hcapacity⟩, hleads⟩ := retains_of_run_search hrun
  all_goals
    have hheld : p.Accounted → p'.held = p'.capacity := fun h ↦
      le_antisymm p'.held_le (hcapacity ▸ hp h ▸ hle)
    have hsettles : Settles (p, j) (p', j') :=
      ⟨hbalance, hcapacity, fun h ↦ accounted_of_held_eq_capacity (hleads hstage) (hheld h)⟩
  · exact ⟨hsettles, trivial⟩
  · cases I? with
    | some I => exact ⟨⟨hbalance, hcapacity, hheld⟩, rfl⟩
    | none =>
      simp only [run_bind, run_get, run_log]
      obtain ⟨p'', j'', hclose, hdone, hzero, hcapacity', hbalance'⟩ :=
        exists_run_close (hleads hstage) e (j'.write _)
      rw [hclose]
      refine ⟨trans_of _ hsettles ⟨hbalance', hcapacity', fun _ ↦ ?_⟩, hdone⟩
      rwa [Accounted, hdone]

/-- **A request**, at any stage. -/
theorem ends_next (p : Pipeline) (j : Journal) : Ends (p, j) ((next S).run e p j) := by
  rw [run_next]
  have haccounted : ∀ stage, p.stage = stage → (stage = .generating ∨ stage = .verifying) →
      p.Accounted → p.held = p.capacity := by
    rintro _ hstage (rfl | rfl) h <;> rwa [Accounted, hstage] at h
  cases hstage : p.stage with
  | done => exact ⟨refl (p, j), hstage⟩
  | generating =>
    exact ends_proceed (by simp [hstage]) (haccounted _ hstage (.inl rfl)) j
  | verifying =>
    exact ends_proceed (by simp [hstage]) (haccounted _ hstage (.inr rfl)) j
  | idle =>
    dsimp only
    obtain ⟨⟨hbalance, -, hcapacity⟩, hsame⟩ := respects_start (S := S) e p j
    have hheld := held_of_run_start (S := S) (e := e) (p := p) (j := j)
    rw [run_bind]
    rcases hrun : (start S).run e p j with ⟨fault | _, p', j'⟩ <;>
      rw [hrun] at hbalance hcapacity hsame hheld
    all_goals
      have hidle : p'.stage = .idle := hsame.symm.trans hstage
      have hsettles : Settles (p, j) (p', j') :=
        ⟨hbalance, hcapacity, fun _ ↦ by rw [Accounted, hidle]; trivial⟩
    · exact ⟨hsettles, trivial⟩
    · obtain ⟨hends, hresult⟩ := ends_proceed (by simp [hidle]) (fun _ ↦ hheld rfl) j'
      exact ⟨trans_of _ hsettles hends, hresult⟩

/-- **One request** settles the solvers, whatever it ends with. -/
theorem respects_next : (next S).Respects Settles := fun _ p j ↦ (ends_next p j).1

section

variable {p p' : Pipeline} {j j' : Journal}

/-- **The solvers that are open after a request**, by its result. -/
theorem Settles.live_next (h : Settles (p, j) (p', j')) (hp : p.Accounted) (hheld : p.held = 0)
    (hj : j.released ≤ j.opened) (S : Setting) (e : Engine) :
    match (next S).run e p' j' with
    | ⟨.ok (some _), _, i⟩ => i.live = j.live + p.capacity
    | ⟨.ok none, _, i⟩ => i.live = j.live
    | ⟨.error _, _, i⟩ => i.live ≤ j.live + p.capacity := by
  obtain ⟨hsettles, hstage⟩ := ends_next (S := S) (e := e) p' j'
  rcases hrun : (next S).run e p' j' with ⟨fault | (_ | I), q, i⟩ <;> rw [hrun] at hsettles hstage
  all_goals
    obtain ⟨hbalance, hcapacity, haccounted⟩ : Settles (p, j) (q, i) := trans_of _ h hsettles
    have hq : q.Accounted := haccounted hp
    have hlive : i.live = j.live + q.held := hbalance.live_eq hheld hj
  · have hle : q.held ≤ p.capacity := hcapacity ▸ q.held_le
    simp only [hlive]
    omega
  · simp only [hlive, hq.held_eq_zero hstage, Nat.add_zero]
  · have hfull : q.held = p.capacity := hcapacity ▸ hq.held_eq_capacity hstage
    simp only [hlive, hfull]

/-- None is open that was not open at the beginning when the pipeline is closed. -/
theorem Settles.live_close (h : Settles (p, j) (p', j')) (hp : p.Accounted) (hheld : p.held = 0)
    (hj : j.released ≤ j.opened) (e : Engine) :
    ∃ q i, close.run e p' j' = ⟨.ok (), q, i⟩ ∧ i.live = j.live := by
  obtain ⟨q, i, hrun, hzero, hbalance⟩ := (h.2.2 hp).exists_run_close e j'
  have hall : Balance held (p, j) (q, i) := trans_of _ h.1 hbalance
  exact ⟨q, i, hrun, by rw [hall.live_eq hheld hj, hzero, Nat.add_zero]⟩

end

/-- What a pipeline is asked for: its next result, or to be closed. -/
inductive Request where
  | next
  | close
  deriving DecidableEq, Repr

namespace Request

/-- Carries out a request. Closing has no result. -/
def carryOut (S : Setting) : Request → Act Pipeline (Option Interpretation)
  | next => Pipeline.next S
  | close => do
    Pipeline.close
    return none

/-- Carries out requests until one of them fails. -/
def carryOutAll (S : Setting) (rs : List Request) : Act Pipeline (List (Option Interpretation)) :=
  rs.mapM (carryOut S)

/-- Carries out requests, each of them whatever became of those before. -/
def attemptAll (S : Setting) (rs : List Request) :
    Act Pipeline (List (Except Fault (Option Interpretation))) :=
  rs.mapM fun r ↦ (r.carryOut S).attempt

/-- Any request settles them. -/
theorem respects_carryOut (S : Setting) (r : Request) : (r.carryOut S).Respects Settles := by
  cases r with
  | next => exact respects_next
  | close => exact respects_close.bind fun _ ↦ respects_pure

/-- Requests in a row, up to the first fault. -/
theorem respects_carryOutAll (S : Setting) (rs : List Request) :
    (carryOutAll S rs).Respects Settles :=
  respects_mapM (respects_carryOut S)

/-- Requests in a row, faults passed over. -/
theorem respects_attemptAll (S : Setting) (rs : List Request) :
    (attemptAll S rs).Respects Settles :=
  respects_mapM fun r ↦ (respects_carryOut S r).attempt

end Request

/-- Asking for all models is asking again and again. -/
theorem respects_all : (all S).Respects Settles :=
  respects_collect respects_next S.budget

/-- So is looking for a model of some kind. -/
theorem respects_find (good : Interpretation → Bool) : (find S good).Respects Settles := by
  have hwithin : ∀ n, (findWithin S good n).Respects Settles := by
    intro n
    induction n with
    | zero => exact respects_throw
    | succ n ih =>
      refine respects_next.bind fun I? ↦ ?_
      cases I? with
      | none => exact respects_pure
      | some I =>
        dsimp only
        split
        · exact respects_pure
        · exact ih
  exact hwithin S.budget

end Pipeline

/-! ### Reasoners -/

/-- The number of solvers that the pipeline of a semantics holds while it works: that of the
generator, and for two of the semantics that of the verifier. -/
def Semantics.solvers : Semantics → Nat
  | naive | complete => 2
  | conflictFree | admissible | preferred | stable | twoValued | ground => 1

namespace Reasoner

variable (R : Reasoner) (given : Option Interpretation)

/-- A pipeline is assembled without a solver. -/
theorem held_assemble : (R.assemble given).held = 0 := by
  rw [assemble]
  cases R.semantics <;> rfl

/-- How many it will hold is settled by the semantics. -/
theorem capacity_assemble : (R.assemble given).capacity = R.semantics.solvers := by
  rw [assemble]
  cases R.semantics <;> rfl

theorem accounted_assemble : (R.assemble given).Accounted := by
  have hstage : (R.assemble given).stage = .idle := by
    rw [assemble]
    cases R.semantics <;> rfl
  rw [Pipeline.Accounted, hstage]
  trivial

/-- **A pipeline of its own** is closed when what was asked of it is done, or has failed. -/
theorem isNeutral_withPipeline {x : Act Pipeline α} (hx : x.Respects Pipeline.Settles) :
    (R.withPipeline given x : Act σ α).IsNeutral := by
  intro e s j
  obtain ⟨j₀, hrun, hlog⟩ : ∃ j₀, (R.pipeline given).run e () j = ⟨.ok (R.assemble given), (), j₀⟩ ∧
      j₀.opened = j.opened ∧ j₀.released = j.released := ⟨_, rfl, rfl, rfl⟩
  obtain ⟨hbalance, -, haccounted⟩ := hx e (R.assemble given) j₀
  obtain ⟨p, i, hclose, hzero, hbalance'⟩ :=
    (haccounted (R.accounted_assemble given)).exists_run_close e
      (x.run e (R.assemble given) j₀).journal
  have hall : Balance Pipeline.held (R.assemble given, j₀) (p, i) := trans_of _ hbalance hbalance'
  have hjournal : ((R.withPipeline given x : Act σ α).run e s j).journal = i := by
    simp only [withPipeline, bracket, bracketBeside, hrun, first, on, Outcome.mapState, hclose]
  simp only [Balance, hjournal, held_assemble, hzero, hlog] at hall ⊢
  exact hall

/-- A query leaves no solver open that was not open before, whatever the engine does. -/
theorem isNeutral_modelsExtending : (R.modelsExtending given : Act σ _).IsNeutral :=
  R.isNeutral_withPipeline given Pipeline.respects_all

/-- A query opens its pipeline and closes it, so that it holds nothing when it ends. -/
theorem isNeutral_model? : (R.model? : Act σ _).IsNeutral :=
  R.isNeutral_withPipeline none Pipeline.respects_next

theorem isNeutral_credulous (a : Nat) : (R.credulous a : Act σ _).IsNeutral :=
  (R.isNeutral_withPipeline _ Pipeline.respects_next).bind fun _ ↦ respects_pure

theorem isNeutral_skeptical (a : Nat) : (R.skeptical a : Act σ _).IsNeutral :=
  (R.isNeutral_withPipeline none (Pipeline.respects_find _)).bind fun _ ↦ respects_pure

/-- **No solver is leaked.** However often the pipeline of a semantics is asked and closed, and
whatever calls the engine gives up: no solver is open before the first request; after a result the
generator has one, and under two of the semantics the verifier has another; and none is left when
there are no more results, when the pipeline is closed, and when it is dropped, also if that happens
because a request failed. -/
theorem live_of_requests (R : Reasoner) (given : Option Interpretation)
    (rs : List Pipeline.Request) (e : Engine) (s : σ) (j : Journal) (hj : j.released ≤ j.opened) :
    (∃ p₀ j₀ replies p i, (R.pipeline given).run e s j = ⟨.ok p₀, s, j₀⟩ ∧ j₀.live = j.live ∧
      (Pipeline.Request.attemptAll R.setting rs).run e p₀ j₀ = ⟨.ok replies, p, i⟩ ∧
      (match (Pipeline.next R.setting).run e p i with
        | ⟨.ok (some _), _, i'⟩ => i'.live = j.live + R.semantics.solvers
        | ⟨.ok none, _, i'⟩ => i'.live = j.live
        | ⟨.error _, _, i'⟩ => i'.live ≤ j.live + R.semantics.solvers) ∧
      ∃ p' i', Pipeline.close.run e p i = ⟨.ok (), p', i'⟩ ∧ i'.live = j.live) ∧
    ((R.withPipeline given (Pipeline.Request.attemptAll R.setting rs)).run e s j).journal.live =
      j.live ∧
    ((R.withPipeline given (Pipeline.Request.carryOutAll R.setting rs)).run e s j).journal.live =
      j.live := by
  have hattempts := Pipeline.Request.respects_attemptAll R.setting rs
  have hrequests := Pipeline.Request.respects_carryOutAll R.setting rs
  refine ⟨?_, (R.isNeutral_withPipeline given hattempts e s j).live_eq rfl hj,
    (R.isNeutral_withPipeline given hrequests e s j).live_eq rfl hj⟩
  have hcapacity := R.capacity_assemble given
  obtain ⟨j₀, hrun, hopened, hreleased⟩ : ∃ j₀, (R.pipeline given).run e s j =
      ⟨.ok (R.assemble given), s, j₀⟩ ∧ j₀.opened = j.opened ∧ j₀.released = j.released :=
    ⟨_, rfl, rfl, rfl⟩
  have hj₀ : j₀.released ≤ j₀.opened := by rwa [hopened, hreleased]
  have hlive : j₀.live = j.live := by rw [Journal.live, Journal.live, hopened, hreleased]
  obtain ⟨replies, p, i, hreplies⟩ := exists_run_mapM_attempt
    (Pipeline.Request.carryOut R.setting) rs e (R.assemble given) j₀
  have hsettles := hattempts e (R.assemble given) j₀
  rw [Pipeline.Request.attemptAll, hreplies] at hsettles
  have haccounted := R.accounted_assemble given
  have hheld := R.held_assemble given
  refine ⟨R.assemble given, j₀, replies, p, i, hrun, hlive, hreplies, ?_, ?_⟩
  · rw [← hlive, ← hcapacity]
    exact hsettles.live_next haccounted hheld hj₀ R.setting e
  · rw [← hlive]
    exact hsettles.live_close haccounted hheld hj₀ e

/-- The case of two arguments that exclude each other: every third call is given up, and the
pipeline of the naive interpretations is asked again, closed, and asked once more. -/
theorem live_of_requests_mutualExclusion :
    Journal.empty.released ≤ Journal.empty.opened ∧
    ∃ p₀ j₀ replies p i,
      (Reasoner.pipeline { setting := .of .mutualExclusion, semantics := .naive }
        (some ⟨[.satisfied, .undecided]⟩)).run
          (Engine.exhaustive.givingUp fun n ↦ n % 3 = 1) () .empty = ⟨.ok p₀, (), j₀⟩ ∧
      (Pipeline.Request.attemptAll (.of .mutualExclusion) [.next, .next, .close, .next]).run
        (Engine.exhaustive.givingUp fun n ↦ n % 3 = 1) p₀ j₀ = ⟨.ok replies, p, i⟩ ∧
      match (Pipeline.next (.of .mutualExclusion)).run
        (Engine.exhaustive.givingUp fun n ↦ n % 3 = 1) p i with
      | ⟨.ok (some _), _, i'⟩ => i'.live = 2
      | ⟨.ok none, _, i'⟩ => i'.live = 0
      | ⟨.error _, _, i'⟩ => i'.live ≤ 2 := by
  obtain ⟨⟨p₀, j₀, replies, p, i, hrun, -, hreplies, hlive, -⟩, -⟩ :=
    live_of_requests { setting := .of .mutualExclusion, semantics := .naive }
      (some ⟨[.satisfied, .undecided]⟩) [.next, .next, .close, .next]
      (Engine.exhaustive.givingUp fun n ↦ n % 3 = 1) () .empty le_rfl
  exact ⟨le_rfl, p₀, j₀, replies, p, i, hrun, hreplies, hlive⟩

end Reasoner

end Dialectical
