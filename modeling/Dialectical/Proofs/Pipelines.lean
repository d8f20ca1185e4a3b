import Dialectical.Pipeline
import Dialectical.Proofs.Grounding

/-!
# Runs of pipelines

A pipeline is a search over what its generator owes, and this module is about the search alone. What
a pipeline is for is said by a `Pipeline.Plan`: which candidates come up, which of them are
accepted, what the processors do to them, which interpretations may be results, and which of these,
the models, must not be lost. `Plan.Serves` asks of the parts that they keep to the plan.

The search is a loop, and everything about it follows from what one turn of it does
(`Plan.Runs.ensures_turn`). A turn draws a candidate, which is no longer owed, and ends with its
acceptance or its rejection. A candidate *leads* to a result if the result stands for it, and
nothing that leads to a result is owed after it; so no result comes twice. A model is a result or is
still owed, so none is lost. As there are fewer candidates left after each turn, the search ends
(`Plan.Runs.ensures_search`).

A turn may also end with a fault, at any place, and then there is less to say: what is owed did not
become more (`Pipeline.Advances`), and the parts are as before.
-/

namespace Dialectical

open Act

variable {α : Type} {e : Engine} {S : Setting}

/-! ### Closing -/

theorem Verifier.isQuiet_close : Verifier.close.IsQuiet e := by
  intro v
  rw [Verifier.close, ensures_get_bind]
  cases v with
  | admissible v => exact ensures_into.2 (ensures_modify.2 trivial)
  | complete v =>
    exact ensures_into.2 (ensures_on.2 (Lifecycle.isQuiet_close NamedSession.isQuiet_release _))
  | naive v =>
    exact ensures_into.2 (ensures_on.2 (Lifecycle.isQuiet_close Session.isQuiet_release _))
  | preferred v => exact ensures_into.2 (ensures_on.2 (ensures_modify.2 trivial))
  | stable v => exact ensures_into.2 (ensures_modify.2 trivial)

theorem Processor.isQuiet_close : Processor.close.IsQuiet e := by
  intro t
  rw [Processor.close, ensures_get_bind]
  cases t with
  | maximizer m => exact ensures_into.2 (ensures_on.2 (ensures_modify.2 trivial))
  | function f => exact ensures_pure.2 trivial

namespace Pipeline

variable {p p' : Pipeline}

theorem ensures_onVerifier {absent : α} {x : Act Verifier α}
    {Q : α → Pipeline → Prop} {E : Pipeline → Prop} (hnone : p.verifier = none → Q absent p)
    (hsome : ∀ v, p.verifier = some v → x.Ensures e v
      (fun a v' ↦ Q a { p with verifier := some v' }) fun v' ↦ E { p with verifier := some v' }) :
    (onVerifier absent x).Ensures e p Q E := by
  rw [onVerifier, ensures_get_bind]
  cases hv : p.verifier with
  | none => exact ensures_pure.2 (hnone hv)
  | some v => exact ensures_on.2 (hsome v hv)

/-- Closing processors changes nothing else. -/
theorem ensures_closeProcessors (place : Place) {Q : Pipeline → Prop} {E : Pipeline → Prop}
    (h : ∀ ts, Q (p.withProcessors ts place)) :
    (closeProcessors place).Ensures e p (fun _ ↦ Q) E := by
  refine ensures_on.2 ((ensures_through (I := fun _ _ ↦ True) (J := fun _ ↦ True)
    (E := fun _ ↦ False) ?_ trivial fun _ _ ↦ trivial).mono (fun _ q _ ↦ h q.2)
      fun _ hq ↦ hq.1.elim)
  intro _ _ t _ _
  have hclose : Processor.close.Ensures e t (fun _ _ ↦ True ∧ True) fun _ ↦ False ∧ True :=
    (Processor.isQuiet_close.ensures t).weaken fun _ _ _ ↦ ⟨trivial, trivial⟩
  exact ensures_second.2 hclose

/-- **Closing** does not fail, at any stage, and keeps the number of candidates. -/
theorem ensures_close {E : Pipeline → Prop} : close.Ensures e p
    (fun _ p' ↦ p'.stage = .done ∧ p'.candidates = p.candidates) E := by
  rw [close, ensures_get_bind]
  by_cases hstage : p.stage = .done
  · rw [if_neg (not_not.2 hstage)]
    exact ensures_pure.2 ⟨hstage, rfl⟩
  · rw [if_pos hstage]
    let Q (p' : Pipeline) : Prop := p'.candidates = p.candidates
    have hgenerator : (onGenerator Generator.close).Ensures e p (fun _ ↦ Q) E :=
      ensures_on.2 ((Generator.isQuiet_close.ensures _).weaken fun _ _ _ ↦ rfl)
    refine hgenerator.bind fun _ p₁ h₁ ↦ ?_
    refine (ensures_onVerifier (Q := fun _ ↦ Q) (fun _ ↦ h₁) fun v _ ↦
      (Verifier.isQuiet_close.ensures v).weaken fun _ _ _ ↦ h₁).bind fun _ p₂ h₂ ↦ ?_
    refine (ensures_closeProcessors .early (Q := Q) fun _ ↦ h₂).bind fun _ p₃ h₃ ↦ ?_
    refine (ensures_closeProcessors .late (Q := Q) fun _ ↦ h₃).bind fun _ p₄ h₄ ↦ ?_
    rw [enter, ensures_modify_bind]
    exact ensures_log.2 ⟨rfl, h₄⟩

theorem isQuiet_close : close.IsQuiet e := fun _ ↦ ensures_close.weaken fun _ _ _ ↦ trivial

/-! ### Acting on the parts -/

/-- What is true of the parts of a pipeline. -/
structure Parts (G : Generator → Prop) (Q : List Pruner → Prop) (V : Option Verifier → Prop)
    (X Y : List Processor → Prop) (p : Pipeline) : Prop where
  generator : G p.generator
  pruners : Q p.pruners
  verifier : V p.verifier
  early : X p.early
  late : Y p.late

/-- What a pipeline writes down of itself. -/
def ledger (p : Pipeline) : Stage × Nat × Nat := (p.stage, p.candidates, p.results)

theorem ledger_withProcessors {ts : List Processor} {place : Place} :
    (p.withProcessors ts place).ledger = p.ledger := by
  cases place <;> rfl

section

variable {G F : Generator → Prop} {Q : List Pruner → Prop} {V W : Option Verifier → Prop}
  {X Y : List Processor → Prop} {I : Interpretation}

theorem Parts.onGenerator {x : Act Generator α} {G' : α → Generator → Prop}
    (h : p.Parts G Q V X Y) (hx : ∀ g, G g → x.Ensures e g G' F) :
    (Pipeline.onGenerator x).Ensures e p
      (fun a p' ↦ p'.Parts (G' a) Q V X Y ∧ p'.ledger = p.ledger)
      fun p' ↦ p'.Parts F Q V X Y ∧ p'.ledger = p.ledger :=
  ensures_on.2 ((hx _ h.generator).mono (fun _ _ hg ↦ ⟨{ h with generator := hg }, rfl⟩)
    fun _ hg ↦ ⟨{ h with generator := hg }, rfl⟩)

theorem Parts.prune {G' : Generator → Prop} (h : p.Parts G Q V X Y)
    (hx : ∀ g qs, G g → Q qs → (Act.through (fun _ ↦ Pruner.prune S) ()).Ensures e (g, qs)
      (fun _ q ↦ G' q.1 ∧ Q q.2) fun q ↦ F q.1 ∧ Q q.2) :
    (Act.on (fun p ↦ (p.generator, p.pruners))
      (fun (p : Pipeline) q ↦ { p with generator := q.1, pruners := q.2 })
      (Act.through (fun _ ↦ Pruner.prune S) ())).Ensures e p
      (fun _ p' ↦ p'.Parts G' Q V X Y ∧ p'.ledger = p.ledger)
      fun p' ↦ p'.Parts F Q V X Y ∧ p'.ledger = p.ledger :=
  ensures_on.2 ((hx _ _ h.generator h.pruners).mono
    (fun _ _ hq ↦ ⟨{ h with generator := hq.1, pruners := hq.2 }, rfl⟩)
    fun _ hq ↦ ⟨{ h with generator := hq.1, pruners := hq.2 }, rfl⟩)

theorem Parts.onVerifier {absent : α} {x : Act Verifier α} {V' : α → Option Verifier → Prop}
    (h : p.Parts G Q V X Y) (hnone : V none → V' absent none)
    (hsome : ∀ v, V (some v) → x.Ensures e v (fun a v' ↦ V' a (some v')) fun v' ↦ W (some v')) :
    (Pipeline.onVerifier absent x).Ensures e p
      (fun a p' ↦ p'.Parts G Q (V' a) X Y ∧ p'.ledger = p.ledger)
      fun p' ↦ p'.Parts G Q W X Y ∧ p'.ledger = p.ledger := by
  refine ensures_onVerifier (fun hv ↦ ?_) fun v hv ↦ ?_
  · exact ⟨{ h with verifier := hv ▸ hnone (hv ▸ h.verifier) }, rfl⟩
  · exact (hsome v (hv ▸ h.verifier)).mono (fun _ _ hv' ↦ ⟨{ h with verifier := hv' }, rfl⟩)
      fun _ hv' ↦ ⟨{ h with verifier := hv' }, rfl⟩

end

/-! ### What the parts do -/

/-- A generator with pruners, before it is opened: what it is for, what is true of its session, and
what is true of the pruners. -/
structure Source where
  goal : Goal
  given : Option Interpretation
  kept : NamedSession → Prop
  pruners : List Pruner → Prop

/-- The generator is that of the source, and was not closed. -/
def Source.Keeps (s : Source) (S : Setting) (e : Engine) : Generator → Prop :=
  Generator.Keeps S e s.goal s.given s.kept

/-- The generator is that of the source, and it is open. -/
def Source.Opened (s : Source) : Generator → Prop := Generator.Opened s.goal s.given s.kept

/-- What a source does for a search: the pruners keep its session as it is to be, and once it is
open it owes conflict-free candidates, and all models among them. -/
structure Source.Gives (s : Source) (S : Setting) (e : Engine) (D M : Set Interpretation) :
    Prop where
  prunes : ∀ g qs, s.Opened g → s.pruners qs → (Act.through (fun _ ↦ Pruner.prune S) ()).Ensures e
    (g, qs) (fun _ q ↦ s.Opened q.1 ∧ s.pruners q.2) fun q ↦ s.Keeps S e q.1 ∧ s.pruners q.2
  opens : ∀ g, s.Opened g → ∃ R, g.Owes e S R ∧ R ⊆ D ∧ M ⊆ R

/-- What a verifier does for a search: it accepts what it is to accept, and a rejection does not
exclude a model. Without a verifier everything is accepted. -/
structure Verifies (S : Setting) (e : Engine) (D : Set Interpretation)
    (A M : Interpretation → Prop) (V : Option Verifier → Prop) : Prop where
  prepare : ∀ v, V (some v) → (Verifier.prepare S).Ensures e v (fun _ v' ↦ V (some v'))
    fun v' ↦ V (some v')
  absent : V none → ∀ I ∈ D, A I
  verify : ∀ v, V (some v) → ∀ I ∈ D, (Verifier.verify S I).Ensures e v
    (fun b v' ↦ V (some v') ∧ (b ↔ A I) ∧ (b = false → (Verifier.prune S I).Ensures e v'
      (fun cs v'' ↦ V (some v'') ∧ ∃ B, S.atoms.Selects cs B ∧ ∀ J, M J → J ∈ B)
      fun v'' ↦ V (some v'')))
    fun v' ↦ V (some v')

/-- What is true of a list of processors, and what they may make of a candidate and of what is
offered besides it. -/
structure Passage where
  ready : List Processor → Prop
  takes : Interpretation → Set Interpretation → Interpretation → Set Interpretation → Prop

/-- Processors do what the passage says, and do not leave the candidates. -/
def Passage.Serves (X : Passage) (S : Setting) (e : Engine) (D : Set Interpretation) : Prop :=
  ∀ g ts R I, g.Offers S R → X.ready ts → I ∈ D →
    (Act.through (Processor.apply S) I).Ensures e (g, ts)
      (fun J q ↦ (J ∈ D ∧ ∃ R' ⊆ R, q.1.Offers S R' ∧ X.takes I R J R') ∧ X.ready q.2)
      fun q ↦ (∃ R' ⊆ R, q.1.Offers S R') ∧ X.ready q.2

/-! ### Plans -/

/-- What a pipeline is for, and what is true of its parts. -/
structure Plan where
  source : Source
  verifier : Option Verifier → Prop
  early : Passage
  late : Passage
  /-- The candidates that may come up. -/
  candidates : Set Interpretation
  /-- The candidates that the verifier accepts. -/
  accepted : Set Interpretation
  /-- The interpretations that must not be lost. -/
  models : Set Interpretation
  /-- The interpretations that may be results. -/
  results : Set Interpretation
  /-- The result stands for the candidate. -/
  leads : Interpretation → Interpretation → Prop

namespace Plan

variable {P : Plan} {R R' R₁ : Set Interpretation} {I J : Interpretation}
  {G : Generator → Prop} {V : Option Verifier → Prop}

/-- The pipeline has the parts of the plan, with this to say of the generator and of the verifier.
-/
def Suits (P : Plan) (G : Generator → Prop) (V : Option Verifier → Prop) (p : Pipeline) : Prop :=
  p.Parts G P.source.pruners V P.early.ready P.late.ready

/-- What the processors at a place are to do. -/
def passage (P : Plan) : Place → Passage
  | .early => P.early
  | .late => P.late

theorem Suits.processors (h : P.Suits G V p) (place : Place) :
    (P.passage place).ready (p.processors place) := by
  cases place with
  | early => exact h.early
  | late => exact h.late

/-- Processors may be replaced by others that do what the plan asks of their place. -/
theorem Suits.withProcessors (h : P.Suits G V p) {place : Place} {ts : List Processor}
    (hts : (P.passage place).ready ts) : P.Suits G V (p.withProcessors ts place) := by
  cases place with
  | early => exact { h with early := hts }
  | late => exact { h with late := hts }

/-- The pipeline has the parts of the plan and was not opened. -/
def Unopened (P : Plan) (e : Engine) (S : Setting) (p : Pipeline) : Prop :=
  P.Suits (P.source.Keeps S e) P.verifier p

/-- The pipeline has the parts of the plan, and its generator owes these candidates. -/
structure Runs (P : Plan) (e : Engine) (S : Setting) (p : Pipeline) (R : Set Interpretation) :
    Prop where
  suits : P.Suits (·.Owes e S R) P.verifier p
  subset : R ⊆ P.candidates

/-- Of what is owed, `J` was made a result: it stands for one of the candidates, none that it stands
for is owed any more, and no other model is lost. -/
structure Yields (P : Plan) (R : Set Interpretation) (J : Interpretation)
    (R' : Set Interpretation) : Prop where
  mem_results : J ∈ P.results
  exists_leads : ∃ I ∈ R, P.leads I J
  not_leads : ∀ X ∈ R', ¬P.leads X J
  rest : ∀ X ∈ R, X ∈ P.models → X = J ∨ X ∈ R'

/-- The parts of a pipeline keep to a plan. -/
structure Serves (P : Plan) (e : Engine) (S : Setting) : Prop where
  fits : S.Fits
  sound : e.Sound
  size_eq : ∀ I ∈ P.results, I.size = S.atoms.size
  gives : P.source.Gives S e P.candidates P.models
  verifies : Verifies S e P.candidates (· ∈ P.accepted) (· ∈ P.models) P.verifier
  early : P.early.Serves S e P.candidates
  late : P.late.Serves S e P.candidates
  /-- What was accepted becomes a result. -/
  yields : ∀ R ⊆ P.candidates, ∀ I ∈ R, ∀ J R₁ K R₂, P.early.takes I (R \ {I}) J R₁ →
    J ∈ P.candidates → J ∈ P.accepted → P.late.takes J R₁ K R₂ → K ∈ P.candidates →
    P.Yields R K R₂
  /-- Nothing is lost with what was rejected. -/
  rejects : ∀ R ⊆ P.candidates, ∀ I ∈ R, ∀ J R₁, P.early.takes I (R \ {I}) J R₁ →
    J ∉ P.accepted → ∀ X ∈ R, X ∈ P.models → X ∈ R₁

theorem Serves.passage (hP : P.Serves e S) (place : Place) :
    (P.passage place).Serves S e P.candidates := by
  cases place with
  | early => exact hP.early
  | late => exact hP.late

/-! ### Opening -/

/-- **Opening** a pipeline opens its generator, lets the pruners act on it, and opens the verifier.
All models are owed then. If the solver gives up, the pipeline can be opened again. -/
theorem Unopened.ensures_start (h : P.Unopened e S p) (hP : P.Serves e S) :
    (Pipeline.start S).Ensures e p
      (fun _ p' ↦ (∃ R, P.Runs e S p' R ∧ P.models ⊆ R) ∧ p'.ledger = p.ledger)
      fun p' ↦ P.Unopened e S p' ∧ p'.ledger = p.ledger := by
  have hprepare : ∀ g, P.source.Keeps S e g → (Generator.prepare S).Ensures e g
      (fun _ ↦ P.source.Opened) (P.source.Keeps S e) := fun g hg ↦ hg.prepare
  refine (h.onGenerator hprepare).bind fun _ p₁ h₁ ↦ ?_
  have hpruned := h₁.1.prune fun g qs hg hqs ↦ hP.gives.prunes g qs hg hqs
  refine (hpruned.weakenFault fun p' h' ↦ ⟨h'.1, h'.2.trans h₁.2⟩).bind fun _ p₂ h₂ ↦ ?_
  have hprepared : (onVerifier () (Verifier.prepare S)).Ensures e p₂
      (fun _ p' ↦ P.Suits P.source.Opened P.verifier p' ∧ p'.ledger = p₂.ledger)
      fun p' ↦ P.Suits P.source.Opened P.verifier p' ∧ p'.ledger = p₂.ledger :=
    h₂.1.onVerifier id fun v hv ↦ hP.verifies.prepare v hv
  have hledger := h₂.2.trans h₁.2
  refine (hprepared.weakenFault fun p' h' ↦ ?_).bind fun _ p₃ h₃ ↦ ?_
  · exact ⟨{ h'.1 with generator := h'.1.generator.keeps }, h'.2.trans hledger⟩
  · rw [ensures_get_bind]
    obtain ⟨R, hR, hsub, hmodels⟩ := hP.gives.opens _ h₃.1.generator
    exact ensures_log.2 ⟨⟨R, ⟨{ h₃.1 with generator := hR }, hsub⟩, hmodels⟩, h₃.2.trans hledger⟩

/-! ### The parts of a turn -/

/-- What is true of the verifier after it decided on a candidate. -/
structure Verified (P : Plan) (e : Engine) (S : Setting) (I : Interpretation) (b : Bool)
    (v? : Option Verifier) : Prop where
  verifier : P.verifier v?
  decides : b ↔ I ∈ P.accepted
  prunes : b = false → ∀ v, v? = some v → (Verifier.prune S I).Ensures e v
    (fun cs v' ↦ P.verifier (some v') ∧ ∃ B, S.atoms.Selects cs B ∧ P.models ⊆ B)
    fun v' ↦ P.verifier (some v')

/-- **Acceptance** is decided as the plan says. -/
theorem Suits.ensures_accepts (h : P.Suits G P.verifier p) (hP : P.Serves e S)
    (hI : I ∈ P.candidates) :
    (accepts S I).Ensures e p
      (fun b p' ↦ P.Suits G (P.Verified e S I b) p' ∧ p'.ledger = p.ledger)
      fun p' ↦ P.Suits G P.verifier p' ∧ p'.ledger = p.ledger := by
  have hverify : (onVerifier true (Verifier.verify S I)).Ensures e p
      (fun b p' ↦ P.Suits G (P.Verified e S I b) p' ∧ p'.ledger = p.ledger)
      fun p' ↦ P.Suits G P.verifier p' ∧ p'.ledger = p.ledger := by
    refine h.onVerifier (fun hnone ↦ ?_) fun v hv ↦ ?_
    · exact ⟨hnone, iff_of_true rfl (hP.verifies.absent hnone I hI), Bool.noConfusion⟩
    · refine (hP.verifies.verify v hv I hI).weaken fun b v' h' ↦ ?_
      obtain ⟨hv', hb, hprune⟩ := h'
      refine ⟨hv', hb, fun hfalse w hw ↦ ?_⟩
      obtain rfl := Option.some.inj hw
      exact hprune hfalse
  refine hverify.bind fun b p' h' ↦ ?_
  rw [ensures_get_bind]
  exact Ensures.log_bind (ensures_pure.2 h')

/-- **A rejection** excludes no model. -/
theorem Suits.ensures_prune (h : P.Suits (·.Offers S R) (P.Verified e S I false) p) :
    (Pipeline.prune S I).Ensures e p
      (fun _ p' ↦ (∃ B, P.models ⊆ B ∧ P.Suits (·.Offers S (R ∩ B)) P.verifier p') ∧
        p'.ledger = p.ledger)
      fun p' ↦ P.Suits (·.Offers S R) P.verifier p' ∧ p'.ledger = p.ledger := by
  have hprune : (onVerifier [] (Verifier.prune S I)).Ensures e p
      (fun cs p' ↦ P.Suits (·.Offers S R)
        (fun v? ↦ P.verifier v? ∧ ∃ B, S.atoms.Selects cs B ∧ P.models ⊆ B) p' ∧
          p'.ledger = p.ledger)
      fun p' ↦ P.Suits (·.Offers S R) P.verifier p' ∧ p'.ledger = p.ledger := by
    refine h.onVerifier (fun hnone ↦ ?_) fun v hv ↦ hv.prunes rfl v rfl
    exact ⟨hnone.verifier, _, Atoms.selects_nil S.atoms, Set.subset_univ _⟩
  refine hprune.bind fun cs p₁ h₁ ↦ ?_
  obtain ⟨hverifier, B, hcs, hB⟩ := h₁.1.verifier
  have h₁' : P.Suits (·.Offers S R) P.verifier p₁ := { h₁.1 with verifier := hverifier }
  refine (h₁'.onGenerator fun g hg ↦ hg.perform hcs).mono ?_ ?_
  · exact fun _ p' h' ↦ ⟨⟨B, hB, h'.1⟩, h'.2.trans h₁.2⟩
  · exact fun p' h' ↦ ⟨h'.1, h'.2.trans h₁.2⟩

/-- What the processors at a place make of a candidate. -/
theorem Suits.ensures_process (h : P.Suits (·.Offers S R) V p) (hP : P.Serves e S) (place : Place)
    (hI : I ∈ P.candidates) :
    (process S place I).Ensures e p
      (fun J p' ↦ (J ∈ P.candidates ∧ ∃ R' ⊆ R, (P.passage place).takes I R J R' ∧
        P.Suits (·.Offers S R') V p') ∧ p'.ledger = p.ledger)
      fun p' ↦ (∃ R' ⊆ R, P.Suits (·.Offers S R') V p') ∧ p'.ledger = p.ledger := by
  have hpassage := hP.passage place _ _ R I h.generator (h.processors place) hI
  have hsuits : ∀ {q : Generator × List Processor} {R'}, q.1.Offers S R' →
      (P.passage place).ready q.2 →
      P.Suits (·.Offers S R') V ({ p with generator := q.1 }.withProcessors q.2 place) := by
    intro q R' hg hts
    have hgenerator : P.Suits (·.Offers S R') V { p with generator := q.1 } :=
      { h with generator := hg }
    exact hgenerator.withProcessors hts
  refine ensures_on.2 (hpassage.mono (fun J q hq ↦ ?_) fun q hq ↦ ?_)
  · obtain ⟨⟨hJ, R', hR', hg, htakes⟩, hts⟩ := hq
    exact ⟨⟨hJ, R', hR', htakes, hsuits hg hts⟩, ledger_withProcessors⟩
  · obtain ⟨⟨R', hR', hg⟩, hts⟩ := hq
    exact ⟨⟨R', hR', hsuits hg hts⟩, ledger_withProcessors⟩

end Plan

/-! ### Turns -/

/-- The pipeline was opened and not closed. -/
def IsOpen (p : Pipeline) : Prop := p.stage = .generating ∨ p.stage = .verifying

/-- How a turn of the search ends. -/
inductive Turn where
  /-- There was no candidate. -/
  | ended
  /-- A candidate was rejected. -/
  | rejected
  /-- A candidate was accepted, and this is the result. -/
  | accepted (J : Interpretation)

/-- What becomes of a candidate: the verifier accepts or rejects it. -/
def judge (S : Setting) (I : Interpretation) : Act Pipeline Turn := do
  if ← accepts S I then
    return .accepted (← process S .late I)
  else
    prune S I
    return .rejected

/-- One turn of the search. -/
def turn (S : Setting) : Act Pipeline Turn := do
  enter .generating
  match ← onGenerator (Generator.next S) with
  | none => return .ended
  | some I =>
    Act.modify fun p ↦ { p with candidates := p.candidates + 1 }
    let I ← process S .early I
    enter .verifying
    judge S I

/-- **A search takes its turns** until one of them does not end with a rejection. -/
theorem search_succ (S : Setting) (n : Nat) : search S (n + 1) = turn S >>= fun
    | .ended => pure none
    | .rejected => search S n
    | .accepted J => pure (some J) := by
  rw [search, turn, bind_assoc]
  refine bind_congr fun _ ↦ ?_
  rw [bind_assoc]
  refine bind_congr fun I? ↦ ?_
  cases I? with
  | none => rfl
  | some I =>
    simp only [judge, bind_assoc]
    refine bind_congr fun _ ↦ bind_congr fun J ↦ bind_congr fun _ ↦ bind_congr fun b ↦ ?_
    cases b <;> simp

namespace Plan

variable {P : Plan} {R R' R₁ : Set Interpretation} {I J : Interpretation}
  {G : Generator → Prop} {V : Option Verifier → Prop}

/-- The pipeline has got from one place of its run to another: nothing is owed that was not owed
before, and each new candidate is owed no longer. -/
structure Advances (P : Plan) (e : Engine) (S : Setting) (p : Pipeline) (R : Set Interpretation)
    (p' : Pipeline) (R' : Set Interpretation) : Prop where
  runs : P.Runs e S p' R'
  subset : R' ⊆ R
  count : p'.candidates + R'.ncard ≤ p.candidates + R.ncard
  isOpen : p'.IsOpen

theorem Advances.trans {p₁ : Pipeline} (h : P.Advances e S p R p₁ R₁)
    (h' : P.Advances e S p₁ R₁ p' R') : P.Advances e S p R p' R' where
  runs := h'.runs
  subset := h'.subset.trans h.subset
  count := h'.count.trans h.count
  isOpen := h'.isOpen

theorem Runs.finite (h : P.Runs e S p R) (hS : S.Fits) : R.Finite :=
  (Interpretation.finite_size S.atoms.size).subset (h.suits.generator.size_eq hS)

/-- Nothing was owed yet when the search went on. -/
theorem Runs.resumes (h : P.Runs e S p R) (hsuits : P.Suits (·.Owes e S R) P.verifier p')
    (hledger : p'.ledger = (.generating, p.candidates, p.results)) :
    P.Advances e S p R p' R where
  runs := ⟨hsuits, h.subset⟩
  subset := subset_rfl
  count := (congrArg (·.2.1 + R.ncard) hledger).le
  isOpen := .inl (congrArg (·.1) hledger)

/-- Drawing a candidate is progress, since it is not owed any more. -/
theorem Runs.draws (h : P.Runs e S p R) (hS : S.Fits) (hI : I ∈ R)
    (hsuits : P.Suits (·.Offers S (R \ {I})) P.verifier p')
    (hledger : p'.ledger = (.generating, p.candidates + 1, p.results)) :
    P.Advances e S p R p' (R \ {I}) where
  runs := ⟨{ hsuits with generator := .offer hsuits.generator },
    Set.sdiff_subset.trans h.subset⟩
  subset := Set.sdiff_subset
  count := by
    have hcandidates : p'.candidates = p.candidates + 1 := congrArg (·.2.1) hledger
    have hcard := Set.ncard_sdiff_singleton_add_one hI (h.finite hS)
    omega
  isOpen := .inl (congrArg (·.1) hledger)

/-- What is done with a candidate may take more out of the offer. -/
theorem Advances.narrow {p₁ : Pipeline} (h : P.Advances e S p R p₁ R₁) (hS : S.Fits)
    (hsuits : P.Suits (·.Offers S R') P.verifier p') (hR' : R' ⊆ R₁)
    (hledger : p'.ledger = p₁.ledger) : P.Advances e S p R p' R' where
  runs := ⟨{ hsuits with generator := .offer hsuits.generator }, hR'.trans h.runs.subset⟩
  subset := hR'.trans h.subset
  count := by
    have hcandidates : p'.candidates = p₁.candidates := congrArg (·.2.1) hledger
    have hcard := Set.ncard_le_ncard hR' (h.runs.finite hS)
    have hcount := h.count
    omega
  isOpen := by
    have hstage : p'.stage = p₁.stage := congrArg (·.1) hledger
    rw [IsOpen, hstage]
    exact h.isOpen

theorem Advances.verifying (h : P.Advances e S p R p' R') :
    P.Advances e S p R { p' with stage := .verifying } R' :=
  { h with runs := ⟨{ h.runs.suits with }, h.runs.subset⟩, isOpen := .inr rfl }

/-- What a turn does to what is owed. -/
def Turns (P : Plan) (R : Set Interpretation) : Turn → Set Interpretation → Prop
  | .ended, _ => R = ∅
  | .rejected, R' => R'.ncard < R.ncard ∧ ∀ X ∈ R, X ∈ P.models → X ∈ R'
  | .accepted J, R' => P.Yields R J R'

/-- **A candidate** is made a result or rejected. What it came from is not owed any more. -/
theorem Advances.ensures_judge {p₁ : Pipeline} (h : P.Advances e S p R p₁ R₁)
    (hruns : P.Runs e S p R) (hP : P.Serves e S) (hI : I ∈ R) (hsub : R₁ ⊆ R \ {I})
    (hsuits : P.Suits (·.Offers S R₁) P.verifier p₁)
    (hJ : J ∈ P.candidates) (htakes : P.early.takes I (R \ {I}) J R₁) :
    (judge S J).Ensures e p₁ (fun t p' ↦ ∃ R', P.Advances e S p R p' R' ∧ P.Turns R t R')
      fun p' ↦ ∃ R', P.Advances e S p R p' R' := by
  have hS := hP.fits
  refine ((hsuits.ensures_accepts hP hJ).weakenFault fun p' h' ↦
    ⟨R₁, h.narrow hS h'.1 subset_rfl h'.2⟩).bind fun b p₂ h₂ ↦ ?_
  obtain ⟨hp₂, hledger₂⟩ := h₂
  have hdecides := hp₂.verifier.decides
  have hp₂' : P.Suits (·.Offers S R₁) P.verifier p₂ :=
    { hp₂ with verifier := hp₂.verifier.verifier }
  have h₂ := h.narrow hS hp₂' subset_rfl hledger₂
  cases b with
  | true =>
    refine ((hp₂'.ensures_process hP .late hJ).weakenFault fun p' h' ↦ ?_).bind fun K p₃ h₃ ↦ ?_
    · obtain ⟨⟨R', hR', hp'⟩, hledger⟩ := h'
      exact ⟨R', h₂.narrow hS hp' hR' hledger⟩
    · obtain ⟨⟨hK, R', hR', hlate, hp₃⟩, hledger⟩ := h₃
      have hyields := hP.yields R hruns.subset I hI J R₁ K R' htakes hJ (hdecides.1 rfl) hlate hK
      exact ensures_pure.2 ⟨R', h₂.narrow hS hp₃ hR' hledger, hyields⟩
  | false =>
    have hrejected : J ∉ P.accepted := fun hacc ↦ Bool.noConfusion (hdecides.2 hacc)
    have hkept := hP.rejects R hruns.subset I hI J R₁ htakes hrejected
    refine ((hp₂.ensures_prune).weakenFault fun p' h' ↦ ?_).bind fun _ p₃ h₃ ↦ ?_
    · exact ⟨R₁, h₂.narrow hS h'.1 subset_rfl h'.2⟩
    · obtain ⟨⟨B, hB, hp₃⟩, hledger⟩ := h₃
      have hdrop : R₁ ∩ B ⊆ R \ {I} := Set.inter_subset_left.trans hsub
      refine ensures_pure.2 ⟨R₁ ∩ B, h₂.narrow hS hp₃ Set.inter_subset_left hledger, ?_, ?_⟩
      · refine Set.ncard_lt_ncard ⟨hdrop.trans Set.sdiff_subset, fun hall ↦ ?_⟩ (hruns.finite hS)
        exact (hdrop (hall hI)).2 rfl
      · exact fun X hX hM ↦ ⟨hkept X hX hM, hB hM⟩

/-- **One turn** of the search: there is no candidate, or one is drawn, which is made a result or
rejected. -/
theorem Runs.ensures_turn (h : P.Runs e S p R) (hP : P.Serves e S) :
    (turn S).Ensures e p (fun t p' ↦ ∃ R', P.Advances e S p R p' R' ∧ P.Turns R t R')
      fun p' ↦ ∃ R', P.Advances e S p R p' R' := by
  have hS := hP.fits
  rw [turn, enter, ensures_modify_bind]
  have hgenerating : P.Suits (·.Owes e S R) P.verifier { p with stage := .generating } :=
    { h.suits with }
  have hnext : (onGenerator (Generator.next S)).Ensures e { p with stage := .generating }
      (fun I? p' ↦ P.Suits (fun g ↦ ∃ R', Drawn R I? R' ∧ g.Offers S R') P.verifier p' ∧
        p'.ledger = (.generating, p.candidates, p.results))
      fun p' ↦ P.Suits (·.Owes e S R) P.verifier p' ∧
        p'.ledger = (.generating, p.candidates, p.results) :=
    hgenerating.onGenerator fun g hg ↦ hg.next hS hP.sound
  refine (hnext.weakenFault fun p' h' ↦ ⟨R, h.resumes h'.1 h'.2⟩).bind fun I? p₁ h₁ ↦ ?_
  obtain ⟨hp₁, hledger₁⟩ := h₁
  obtain ⟨R', hdrawn, hg⟩ := hp₁.generator
  cases I? with
  | none =>
    obtain ⟨rfl, rfl⟩ := hdrawn
    exact ensures_pure.2 ⟨∅, h.resumes { hp₁ with generator := .offer hg } hledger₁, rfl⟩
  | some I =>
    obtain ⟨hI, rfl⟩ := hdrawn
    rw [ensures_modify_bind]
    have hsuits : P.Suits (·.Offers S (R \ {I})) P.verifier
        { p₁ with candidates := p₁.candidates + 1 } := { hp₁ with generator := hg }
    have hdraws := h.draws hS hI hsuits (congrArg (fun l ↦ (l.1, l.2.1 + 1, l.2.2)) hledger₁)
    refine ((hsuits.ensures_process hP .early (h.subset hI)).weakenFault fun p' h' ↦ ?_).bind
      fun J p₂ h₂ ↦ ?_
    · obtain ⟨⟨R', hR', hp'⟩, hledger⟩ := h'
      exact ⟨R', hdraws.narrow hS hp' hR' hledger⟩
    · obtain ⟨⟨hJ, R₁, hR₁, htakes, hp₂⟩, hledger⟩ := h₂
      rw [enter, ensures_modify_bind]
      have hverifying := (hdraws.narrow hS hp₂ hR₁ hledger).verifying
      exact hverifying.ensures_judge h hP hI hR₁ { hp₂ with } hJ htakes

/-! ### The search -/

/-- What a search ends with: a result, or nothing if no model is left. -/
def Found (P : Plan) (R : Set Interpretation) (J? : Option Interpretation)
    (R' : Set Interpretation) : Prop :=
  match J? with
  | none => ∀ X ∈ R, X ∉ P.models
  | some J => P.Yields R J R'

/-- What is found after a rejection is found. -/
theorem Found.of_rejected {J? : Option Interpretation} (h : P.Found R₁ J? R') (hsub : R₁ ⊆ R)
    (hkept : ∀ X ∈ R, X ∈ P.models → X ∈ R₁) : P.Found R J? R' := by
  cases J? with
  | none => exact fun X hX hM ↦ h X (hkept X hX hM) hM
  | some J =>
    obtain ⟨I, hI, hleads⟩ := h.exists_leads
    exact { h with
      exists_leads := ⟨I, hsub hI, hleads⟩
      rest := fun X hX hM ↦ h.rest X (hkept X hX hM) hM }

/-- **A search** ends, since fewer candidates are left after each turn, and with a result if a model
was left. -/
theorem Runs.ensures_search (h : P.Runs e S p R) (hP : P.Serves e S) {n : Nat}
    (hn : R.ncard < n) :
    (search S n).Ensures e p (fun J? p' ↦ ∃ R', P.Advances e S p R p' R' ∧ P.Found R J? R')
      fun p' ↦ ∃ R', P.Advances e S p R p' R' := by
  induction n generalizing p R with
  | zero => exact absurd hn (Nat.not_lt_zero _)
  | succ n ih =>
    rw [search_succ]
    refine (h.ensures_turn hP).bind fun t p₁ h₁ ↦ ?_
    obtain ⟨R₁, hadvances, hturn⟩ := h₁
    cases t with
    | ended =>
      refine ensures_pure.2 ⟨R₁, hadvances, fun X hX ↦ ?_⟩
      exact absurd (hturn ▸ hX) (Set.notMem_empty X)
    | accepted J => exact ensures_pure.2 ⟨R₁, hadvances, hturn⟩
    | rejected =>
      -- the search goes on among fewer candidates
      obtain ⟨hlt, hkept⟩ := hturn
      refine (ih hadvances.runs (hlt.trans_le (Nat.le_of_lt_succ hn))).mono ?_ ?_
      · intro J? p₂ h₂
        obtain ⟨R₂, h₂, hfound⟩ := h₂
        exact ⟨R₂, hadvances.trans h₂, hfound.of_rejected hadvances.subset hkept⟩
      · intro p₂ h₂
        obtain ⟨R₂, h₂⟩ := h₂
        exact ⟨R₂, hadvances.trans h₂⟩

end Plan

end Pipeline

end Dialectical
