import Dialectical.Generator
import Dialectical.Proofs.Completions
import Dialectical.Proofs.Sessions

/-!
# What generators offer

A session offers a set of interpretations if its models, seen on the argument atoms, are exactly
these (`Session.Offers`). Clauses over the argument atoms select some of what is offered, and asking
for a model gives one of the interpretations that are offered, whichever the engine chooses. A
generator takes what it gives out of the offer (`Generator.Offers.next`), so everything comes at
most once, and there is nothing left exactly when it gives nothing.

The session of a new generator says that a conflict-free interpretation in its scope is shown
(`Generator.ensures_start`), and such a session offers all of them (`Session.Means.offers`).
-/

namespace Dialectical

open Act Clause

variable {α : Type} {e : Engine}

/-- Fewer interpretations are offered than searches are allowed to ask for. -/
theorem Setting.ncard_lt_budget {S : Setting} {R : Set Interpretation}
    (h : ∀ I ∈ R, I.size = S.atoms.size) : R.ncard < S.budget :=
  Nat.lt_succ_of_le (Interpretation.ncard_le h)

/-! ### Components that open on first use -/

/-- What the component keeps has a property, or will have it when the component is opened; opening
it does not fail. -/
def Lifecycle.Keeps {τ : Type} (e : Engine) (start : Act Unit τ) (Φ : τ → Prop) : Lifecycle τ → Prop
  | unopened => start.Ensures e () (fun t _ ↦ Φ t) fun _ ↦ False
  | opened t => Φ t
  | closed => False

/-- **Using** a component acts on what it keeps, which has the property also if the component had to
be opened first. -/
theorem Lifecycle.Keeps.use {τ : Type} {start : Act Unit τ} {fault : Fault} {Φ : τ → Prop}
    {p : Lifecycle τ} {x : Act τ α} {Q : α → Lifecycle τ → Prop} {E : Lifecycle τ → Prop}
    (h : p.Keeps e start Φ)
    (hx : ∀ t, Φ t → x.Ensures e t (fun a t' ↦ Q a (.opened t')) fun t' ↦ E (.opened t')) :
    (Lifecycle.use start fault x).Ensures e p Q E := by
  rw [Lifecycle.use, ensures_get_bind]
  cases p with
  | closed => exact absurd h not_false
  | opened t => exact ensures_into.2 (hx t h)
  | unopened =>
    have hstart : (Act.lift start : Act (Lifecycle τ) τ).Ensures e .unopened (fun t _ ↦ Φ t) E :=
      ensures_lift.2 (h.weakenFault fun _ ↦ False.elim)
    exact hstart.bind fun t _ ht ↦ ensures_into.2 (hx t ht)

/-- Closing does not fail if releasing does not, at any stage. -/
theorem Lifecycle.ensures_close {τ : Type} {release : Act τ Unit} (h : release.IsQuiet e)
    (p : Lifecycle τ) :
    (Lifecycle.close release).Ensures e p (fun _ p' ↦ p' = .closed) fun _ ↦ False := by
  rw [Lifecycle.close, ensures_get_bind]
  cases p with
  | opened t =>
    have hrelease : (into Lifecycle.opened t release).Ensures e (.opened t) (fun _ _ ↦ True)
        fun _ ↦ False := ensures_into.2 (h.ensures t)
    exact hrelease.bind fun _ _ _ ↦ ensures_modify.2 rfl
  | unopened => exact ensures_modify.2 rfl
  | closed => exact ensures_modify.2 rfl

/-- So closing is quiet. -/
theorem Lifecycle.isQuiet_close {τ : Type} {release : Act τ Unit} (h : release.IsQuiet e) :
    (Lifecycle.close release).IsQuiet e :=
  fun p ↦ (Lifecycle.ensures_close h p).weaken fun _ _ _ ↦ trivial

namespace NamedSession

variable {s : NamedSession}

/-- Acting on the session leaves the names alone. -/
theorem ensures_onSession {x : Act Session α} {Q : α → NamedSession → Prop}
    {E : NamedSession → Prop} : (onSession x).Ensures e s Q E ↔
      x.Ensures e s.session (fun a t ↦ Q a { s with session := t })
        fun t ↦ E { s with session := t } :=
  ensures_on

theorem isQuiet_release : release.IsQuiet e := fun _ ↦
  ensures_onSession.2 Session.ensures_release

/-- Asking with some literals assumed. -/
theorem ensures_satisfiableWith (he : e.Sound) {ls : List Literal} (hs : s.session.pending = []) :
    (satisfiableWith ls).Ensures e s
      (fun b s' ↦ (b ↔ Solvable s.session.solver.clauses ls) ∧ s'.names = s.names ∧
        s.session.Asked s'.session)
      fun s' ↦ s'.names = s.names ∧ s.session.Asked s'.session := by
  rw [satisfiableWith, ensures_onSession, Session.assume, ensures_modify_bind, hs]
  refine (Session.ensures_satisfiable he).mono ?_ fun t ht ↦ ⟨rfl, ht.solver, ht.pending⟩
  exact fun b t ht ↦ ⟨ht.1, rfl, ht.2.solver, ht.2.pending⟩

/-- Looking up a name that is there changes nothing. -/
theorem ensures_nameOf {a : Nat} {l : Literal} {E : NamedSession → Prop}
    (hl : s.names[a]? = some l) :
    (nameOf a).Ensures e s (fun l' s' ↦ l' = l ∧ s' = s) E := by
  have hlookup : Fault.lookup s.names a = .ok l := by rw [Fault.lookup, hl]
  exact ensures_ofExcept hlookup ⟨rfl, rfl⟩

/-- In the models of the session the names have the values of the conditions. -/
def NamesConditions (S : Setting) (s : NamedSession) : Prop :=
  ∀ v, AllHold s.session.solver.clauses v →
    s.names.map (Literal.holds v) = S.framework.arguments.map (S.verdict v)

/-- If there is a model, there is a name for each argument. -/
theorem NamesConditions.exists_name {S : Setting} {a : Nat} (h : s.NamesConditions S)
    (hmodel : Solvable s.session.solver.clauses []) (ha : a < S.framework.size) :
    ∃ l, s.names[a]? = some l ∧ ∀ v, AllHold s.session.solver.clauses v →
      l.holds v = S.verdict v a := by
  have hget : ∀ v, AllHold s.session.solver.clauses v →
      s.names[a]?.map (Literal.holds v) = some (S.verdict v a) := by
    intro v hv
    rw [← List.getElem?_map, h v hv, List.getElem?_map, Framework.arguments,
      List.getElem?_range ha, Option.map_some]
  obtain ⟨v, hv, -⟩ := hmodel
  obtain ⟨l, hl, -⟩ := Option.map_eq_some_iff.1 (hget v hv)
  refine ⟨l, hl, fun v hv ↦ ?_⟩
  have hl' := hget v hv
  rwa [hl, Option.map_some, Option.some.injEq] at hl'

/-- A session with names is opened by an action that gives the names. -/
theorem ensures_acquire {n : Nat} {x : Act Session (List Literal)} {Φ : NamedSession → Prop}
    {E : Unit → Prop} (hx : ∀ t : Session, t.Means n (fun _ ↦ True) →
      x.Ensures e t (fun names t' ↦ Φ ⟨t', names⟩) fun _ ↦ E ()) :
    (acquire n x).Ensures e () (fun s _ ↦ Φ s) E := by
  refine (ensures_handOver (Q := fun p _ ↦ Φ ⟨p.2, p.1⟩) Session.isQuiet_release
    Session.ensures_acquire hx).bind ?_
  rintro ⟨names, t⟩ - ht
  exact ensures_pure.2 ht

end NamedSession

/-! ### Offers of sessions -/

/-- The models of the session, seen on the argument atoms, are exactly these interpretations. -/
def Session.Offers (s : Session) (A : Atoms) (R : Set Interpretation) : Prop :=
  ∃ P, s.Means A.count P ∧ (∀ v, P v → ∃ I ∈ R, A.Encodes v I) ∧ ∀ I ∈ R, ∃ v, P v ∧ A.Encodes v I

namespace Session.Offers

variable {s s' : Session} {A : Atoms} {R B : Set Interpretation} {cs : List Clause}
  {E : Session → Prop}

/-- Everything that is offered is about as many arguments as there are atoms for. -/
theorem size_eq (h : s.Offers A R) : ∀ I ∈ R, I.size = A.size := by
  obtain ⟨P, -, -, hcomplete⟩ := h
  intro I hI
  obtain ⟨v, -, hv⟩ := hcomplete I hI
  exact hv.size_eq

/-- So an offer is finite. -/
theorem finite (h : s.Offers A R) : R.Finite :=
  (Interpretation.finite_size A.size).subset h.size_eq

/-- What is taken out of an offer makes it smaller. -/
theorem ncard_inter_lt {I : Interpretation} (h : s.Offers A R) (hI : I ∈ R) (hB : I ∉ B) :
    (R ∩ B).ncard < R.ncard :=
  Set.ncard_lt_ncard ⟨Set.inter_subset_left, fun hsub ↦ hB (hsub hI).2⟩ h.finite

/-- No assumption waits for the next question. -/
theorem pending (h : s.Offers A R) : s.pending = [] :=
  let ⟨_, hP, _⟩ := h
  hP.pending

/-- A question changes nothing of the offer. -/
theorem asked (h : s.Offers A R) (h' : s.Asked s') : s'.Offers A R :=
  let ⟨P, hP, hR⟩ := h
  ⟨P, hP.asked h', hR⟩

/-- Saying more of the interpretations that are offered selects among them. -/
theorem of_means {P : (Variable → Bool) → Prop} (hsound : ∀ v, P v → ∃ I ∈ R, A.Encodes v I)
    (hcomplete : ∀ I ∈ R, ∃ v, P v ∧ A.Encodes v I) (hcs : A.Selects cs B)
    (hs' : s'.Means A.count fun v ↦ P v ∧ AllHold cs v) : s'.Offers A (R ∩ B) := by
  refine ⟨_, hs', fun v hv ↦ ?_, fun I hI ↦ ?_⟩
  · obtain ⟨I, hI, hvI⟩ := hsound v hv.1
    exact ⟨I, ⟨hI, (hcs.allHold_iff v I hvI).1 hv.2⟩, hvI⟩
  · obtain ⟨v, hv, hvI⟩ := hcomplete I hI.1
    exact ⟨v, ⟨hv, (hcs.allHold_iff v I hvI).2 hI.2⟩, hvI⟩

/-- **Clauses over the argument atoms select from what is offered.** -/
theorem perform (h : s.Offers A R) (hcs : A.Selects cs B) :
    (Session.perform (Encoder.clauses cs)).Ensures e s (fun _ s' ↦ s'.Offers A (R ∩ B)) E := by
  obtain ⟨P, hP, hsound, hcomplete⟩ := h
  exact (hP.perform hcs.imposes).weaken fun _ _ hs' ↦ of_means hsound hcomplete hcs hs'.2

/-- A single clause selects in the same way. -/
theorem add {c : Clause} (h : s.Offers A R) (hc : A.Selects [c] B) :
    (Session.add c).Ensures e s (fun _ s' ↦ s'.Offers A (R ∩ B)) E := by
  obtain ⟨P, hP, hsound, hcomplete⟩ := h
  have hspan := (hc.span_le c (by simp)).trans A.two_mul_size_le_count
  refine (hP.add hspan).weaken fun _ s' hs' ↦ of_means hsound hcomplete hc (hs'.congr fun v ↦ ?_)
  rw [allHold_singleton]

/-- **There is a model as long as something is offered.** -/
theorem solvable_iff (h : s.Offers A R) :
    Solvable s.solver.clauses s.pending ↔ R.Nonempty := by
  obtain ⟨P, hP, hsound, hcomplete⟩ := h
  rw [hP.solvable_iff]
  constructor
  · rintro ⟨v, hv⟩
    obtain ⟨I, hI, -⟩ := hsound v hv
    exact ⟨I, hI⟩
  · rintro ⟨I, hI⟩
    obtain ⟨v, hv, -⟩ := hcomplete I hI
    exact ⟨v, hv⟩

/-- The argument atoms that are true in a model are read as one of the interpretations that are
offered. -/
theorem witness (h : s.Offers A R) (he : e.Sound) :
    (Session.witness A.ofArguments).Ensures e s
      (fun xs? s' ↦ s'.Offers A R ∧ match xs? with
        | none => R = ∅
        | some xs => A.interpretation xs ∈ R)
      fun s' ↦ s'.Offers A R := by
  refine (Session.ensures_witness he).mono ?_ fun s' ↦ h.asked
  rintro (_ | xs) s' ⟨hxs, hs'⟩
  · refine ⟨h.asked hs', Set.not_nonempty_iff_eq_empty.1 ?_⟩
    rwa [← h.solvable_iff]
  · refine ⟨h.asked hs', ?_⟩
    obtain ⟨P, hP, hsound, -⟩ := h
    obtain ⟨v, hv, -, rfl⟩ := hxs
    obtain ⟨I, hI, hvI⟩ := hsound v (hP.mean.sound v hv)
    show A.interpretation (A.ofArguments.filter v) ∈ R
    rwa [hvI.interpretation_eq]

/-- Going on with what is read, beside another state. -/
theorem witness_bind {τ : Type} {t : τ} {f : Option (List Variable) → Act (Session × τ) α}
    {Q : α → Session × τ → Prop} {E : Session × τ → Prop} (h : s.Offers A R) (he : e.Sound)
    (hE : ∀ s', E (s', t))
    (hnone : R = ∅ → ∀ s', s'.Offers A R → (f none).Ensures e (s', t) Q E)
    (hsome : ∀ xs, A.interpretation xs ∈ R → ∀ s', s'.Offers A R →
      (f (some xs)).Ensures e (s', t) Q E) :
    (Act.first (Session.witness A.ofArguments) >>= f).Ensures e (s, t) Q E := by
  refine ((h.witness he).weakenFault fun s' _ ↦ hE s').first_bind ?_
  rintro (_ | xs) s' ⟨hs', hxs⟩
  · exact hnone hxs s' hs'
  · exact hsome xs hxs s' hs'

end Session.Offers

/-- A session that says that one of some interpretations is shown to be conflict-free offers those
of them that are. -/
theorem Session.Means.offers {S : Setting} {s : Session} {R : Set Interpretation}
    (hS : S.Fits) (h : s.Means S.atoms.count (S.ShowsIn R)) :
    s.Offers S.atoms {I | S.framework.ConflictFree I ∧ I ∈ R} := by
  refine ⟨_, h, ?_, ?_⟩
  · rintro v ⟨I, hI, hv⟩
    exact ⟨I, ⟨hS.exists_shows_iff.1 ⟨v, hv⟩, hI⟩, hv.encodes⟩
  · rintro I ⟨hcf, hI⟩
    obtain ⟨v, hv⟩ := hS.exists_shows_iff.2 hcf
    exact ⟨v, ⟨I, hI, hv⟩, hv.encodes⟩

/-- What an offer gives, and what is left of it. -/
def Drawn (R : Set Interpretation) (I? : Option Interpretation) (R' : Set Interpretation) : Prop :=
  match I? with
  | none => R = ∅ ∧ R' = ∅
  | some I => I ∈ R ∧ R' = R \ {I}

/-- Nothing new is offered afterwards. -/
theorem Drawn.subset {R R' : Set Interpretation} {I? : Option Interpretation}
    (h : Drawn R I? R') : R' ⊆ R := by
  cases I? with
  | none => exact h.2 ▸ Set.empty_subset R
  | some I => exact h.2 ▸ Set.sdiff_subset

/-- What was drawn had been offered. -/
theorem Drawn.mem {R R' : Set Interpretation} {I? : Option Interpretation} (h : Drawn R I? R') :
    ∀ I, I? = some I → I ∈ R := by
  intro I hI
  subst hI
  exact h.1

/-- An offer gives something as long as there is something. -/
theorem Drawn.eq_none_iff {R R' : Set Interpretation} {I? : Option Interpretation}
    (h : Drawn R I? R') : I? = none ↔ R = ∅ := by
  cases I? with
  | none => exact iff_of_true rfl h.1
  | some I => exact iff_of_false (Option.some_ne_none I) (Set.nonempty_iff_ne_empty.1 ⟨I, h.1⟩)

namespace Generator

variable {S : Setting} {g : Generator} {goal : Goal} {given : Option Interpretation}
  {R B : Set Interpretation} {cs : List Clause}

/-- **Each model is excluded once it is read.** -/
theorem ensures_nextWitness {s : Session} (h : s.Offers S.atoms R) (he : e.Sound) :
    (nextWitness S).Ensures e s (fun I? s' ↦ ∃ R', Drawn R I? R' ∧ s'.Offers S.atoms R')
      fun s' ↦ s'.Offers S.atoms R := by
  refine (h.witness he).bind ?_
  rintro (_ | xs) s' ⟨hs', hxs⟩
  · obtain rfl : R = ∅ := hxs
    exact ensures_pure.2 ⟨∅, ⟨rfl, rfl⟩, hs'⟩
  · have hselects := Atoms.selects_differs (A := S.atoms) (hs'.size_eq _ hxs)
    exact (hs'.add hselects).bind fun _ t ht ↦ ensures_pure.2 ⟨_, ⟨hxs, rfl⟩, ht⟩

theorem isQuiet_close : close.IsQuiet e := fun _ ↦
  ensures_on.2 (Lifecycle.isQuiet_close NamedSession.isQuiet_release _)

/-! ### What generators keep -/

/-- **Using a generator** acts on what it keeps, and opens it before if it was not used yet. -/
theorem ensures_useNamed {Φ : NamedSession → Prop} {x : Act NamedSession α}
    {Q : α → Generator → Prop} {E : Generator → Prop}
    (h : g.phase.Keeps e (start S g.goal g.given) Φ)
    (hx : ∀ s, Φ s → x.Ensures e s (fun a s' ↦ Q a { g with phase := .opened s' })
      fun s' ↦ E { g with phase := .opened s' }) :
    (useNamed S x).Ensures e g Q E := by
  rw [useNamed, ensures_get_bind, ensures_on]
  exact h.use hx

/-- What a generator for this goal keeps has a property, or will have it when the generator is
opened. -/
structure Keeps (S : Setting) (e : Engine) (goal : Goal) (given : Option Interpretation)
    (Φ : NamedSession → Prop) (g : Generator) : Prop where
  goal_eq : g.goal = goal
  given_eq : g.given = given
  phase : g.phase.Keeps e (start S goal given) Φ

/-- The generator for this goal is open, and what it keeps has a property. -/
structure Opened (goal : Goal) (given : Option Interpretation) (Φ : NamedSession → Prop)
    (g : Generator) : Prop where
  goal_eq : g.goal = goal
  given_eq : g.given = given
  exists_kept : ∃ s, g.phase = .opened s ∧ Φ s

section

variable {Φ : NamedSession → Prop}

/-- An open generator keeps what it has. -/
theorem Opened.keeps (h : g.Opened goal given Φ) : g.Keeps S e goal given Φ := by
  obtain ⟨hgoal, hgiven, s, hphase, hs⟩ := h
  refine ⟨hgoal, hgiven, ?_⟩
  rw [hphase]
  exact hs

/-- Whatever is done with what a generator keeps, the generator is open afterwards. -/
theorem Keeps.use {x : Act NamedSession α} {Ψ : α → NamedSession → Prop}
    (h : g.Keeps S e goal given Φ) (hx : ∀ s, Φ s → x.Ensures e s Ψ Φ) :
    (useNamed S x).Ensures e g (fun a g' ↦ g'.Opened goal given (Ψ a))
      fun g' ↦ g'.Opened goal given Φ := by
  obtain ⟨rfl, rfl, hphase⟩ := h
  refine ensures_useNamed hphase fun s hs ↦ (hx s hs).mono ?_ ?_
  · exact fun a s' hs' ↦ ⟨rfl, rfl, s', rfl, hs'⟩
  · exact fun s' hs' ↦ ⟨rfl, rfl, s', rfl, hs'⟩

/-- **Preparing** opens a generator. No solver is asked, so none can give up. -/
theorem Keeps.prepare {E : Generator → Prop} (h : g.Keeps S e goal given Φ) :
    (prepare S).Ensures e g (fun _ g' ↦ g'.Opened goal given Φ) E := by
  obtain ⟨rfl, rfl, hphase⟩ := h
  exact ensures_useNamed hphase fun s hs ↦ ensures_pure.2 ⟨rfl, rfl, s, rfl, hs⟩

end

/-! ### Offers of generators -/

/-- The open generator offers these interpretations. A generator of the ground interpretation that
is open for others has nothing to offer any more. -/
structure Offers (S : Setting) (g : Generator) (R : Set Interpretation) : Prop where
  opened : ∃ s, g.phase = .opened s ∧ s.session.Offers S.atoms R
  ground : g.goal = .ground → R = ∅

theorem Offers.size_eq (h : g.Offers S R) : ∀ I ∈ R, I.size = S.atoms.size :=
  let ⟨_, _, hs⟩ := h.opened
  hs.size_eq

/-- What is done to the session of a generator is done to its offer. -/
theorem Offers.use {x : Act Session α} {P : α → Set Interpretation → Prop} (h : g.Offers S R)
    (hP : ∀ a R', P a R' → R' ⊆ R)
    (hx : ∀ s : Session, s.Offers S.atoms R → x.Ensures e s
      (fun a s' ↦ ∃ R', P a R' ∧ s'.Offers S.atoms R') fun s' ↦ s'.Offers S.atoms R) :
    (Generator.use S x).Ensures e g (fun a g' ↦ ∃ R', P a R' ∧ g'.Offers S R')
      fun g' ↦ g'.Offers S R := by
  obtain ⟨⟨s, hphase, hs⟩, hground⟩ := h
  refine ensures_useNamed (Φ := (· = s)) (hphase ▸ rfl) ?_
  rintro s rfl
  refine NamedSession.ensures_onSession.2 ((hx s.session hs).mono ?_ ?_)
  · rintro a t ⟨R', hR', ht⟩
    exact ⟨R', hR', ⟨_, rfl, ht⟩, fun h ↦ Set.subset_empty_iff.1 (hground h ▸ hP a R' hR')⟩
  · exact fun t ht ↦ ⟨⟨_, rfl, ht⟩, hground⟩

/-- **Clauses given to a generator** select from what it offers. -/
theorem Offers.perform (h : g.Offers S R) (hcs : S.atoms.Selects cs B) :
    (Generator.use S (Session.perform (Encoder.clauses cs))).Ensures e g
      (fun _ g' ↦ g'.Offers S (R ∩ B)) fun g' ↦ g'.Offers S R := by
  refine (h.use (P := fun _ R' ↦ R' = R ∩ B) ?_ fun s hs ↦ ?_).weaken ?_
  · rintro - _ rfl
    exact Set.inter_subset_left
  · exact (hs.perform hcs).weaken fun _ s' hs' ↦ ⟨_, rfl, hs'⟩
  · rintro - g' ⟨_, rfl, hg'⟩
    exact hg'

/-- **A generator gives what it offers, and no longer offers what it gave.** -/
theorem Offers.next (h : g.Offers S R) (he : e.Sound) :
    (Generator.next S).Ensures e g (fun I? g' ↦ ∃ R', Drawn R I? R' ∧ g'.Offers S R')
      fun g' ↦ g'.Offers S R := by
  rw [Generator.next, ensures_get_bind]
  have hwitness := h.use (x := nextWitness S) (fun _ _ ↦ Drawn.subset)
    fun s hs ↦ ensures_nextWitness hs he
  cases hgoal : g.goal with
  | conflictFree => exact hwitness
  | twoValued => exact hwitness
  | ground =>
    -- nothing is offered, so there are no models and no rounds
    obtain rfl : R = ∅ := h.ground hgoal
    obtain ⟨⟨s, hphase, hs⟩, -⟩ := h
    rw [ensures_get_bind]
    refine ensures_useNamed (Φ := (· = s)) (hphase ▸ rfl) ?_
    rintro s rfl
    refine ((NamedSession.ensures_satisfiableWith he hs.pending).weakenFault
      fun t ht ↦ ⟨⟨t, rfl, hs.asked ht.2⟩, fun _ ↦ rfl⟩).bind ?_
    rintro b t ⟨hb, -, ht⟩
    have hunsat : ¬Solvable s.session.solver.clauses [] := by
      rw [← hs.pending, hs.solvable_iff]
      exact Set.not_nonempty_empty
    obtain rfl : b = false := Bool.eq_false_iff.2 fun hbt ↦ hunsat (hb.1 hbt)
    exact ensures_pure.2 ⟨∅, ⟨rfl, rfl⟩, ⟨t, rfl, hs.asked ht⟩, fun _ ↦ rfl⟩

/-! ### What is offered at first -/

/-- What a generator is confined to, besides being conflict-free. -/
def scope (goal : Goal) (given : Option Interpretation) : Set Interpretation :=
  {I | (goal = .twoValued → I.isTwoValued) ∧ ∀ J ∈ given, J ≤ I}

/-- The clauses that are given to a generator at the start. -/
theorem selects_given (S : Setting) (given : Option Interpretation) :
    (∀ J ∈ given, J.size = S.atoms.size) → S.atoms.Selects (match given with
      | none => []
      | some I => (S.atoms.fixing I).map ([·])) {I | ∀ J ∈ given, J ≤ I} := by
  intro hgiven
  cases given with
  | none => simpa using Atoms.selects_nil S.atoms
  | some J => simpa using Atoms.selects_fixing (hgiven J rfl)

/-- **The encoding of a generator** says that an interpretation in its scope is shown to be
conflict-free. -/
theorem imposes_encoding (hS : S.Fits) (hgoal : goal ≠ .ground)
    (hgiven : ∀ J ∈ given, J.size = S.atoms.size) :
    (encoding S goal given).Imposes S.atoms.count [] (S.ShowsIn (scope goal given)) := by
  -- the goals differ in the first part only
  have hrest : ∀ {x : Encoder Unit} {cs : List Clause} {R B : Set Interpretation},
      x.Imposes S.atoms.count () (S.ShowsIn R) → S.atoms.Selects cs B → R ∩ B = scope goal given →
      Encoder.Imposes (do
        x
        Encoder.clauses cs
        return []) S.atoms.count ([] : List Literal) (S.ShowsIn (scope goal given)) := by
    intro x cs R B hx hcs hR
    refine (hx.bind (hcs.imposes.bind (Encoder.imposes_pure [] _))).congr
      fun v ↦ ?_
    rw [and_true, Setting.showsIn_inter hcs, hR]
  cases goal with
  | conflictFree =>
    exact hrest hS.imposes_conflictFree (selects_given S _ hgiven) (by simp [scope])
  | twoValued =>
    exact hrest hS.imposes_twoValued (selects_given S _ hgiven) (by simp [scope, Set.ofPred_and])
  | ground => exact absurd rfl hgoal

/-- What is logged at the start changes nothing. -/
theorem ensures_logOpening {s : Session} {E : Session → Prop} :
    (logOpening goal given).Ensures e s (fun _ s' ↦ s' = s) E := by
  cases goal <;> exact ensures_log.2 rfl

/-- The session of a new generator says that an interpretation in its scope is shown to be
conflict-free. -/
theorem ensures_start (hS : S.Fits) (hgoal : goal ≠ .ground)
    (hgiven : ∀ J ∈ given, J.size = S.atoms.size) {E : Unit → Prop} :
    (start S goal given).Ensures e ()
      (fun s _ ↦ s.session.Means S.atoms.count (S.ShowsIn (scope goal given))) E := by
  refine NamedSession.ensures_acquire fun t ht ↦ ?_
  refine (ht.perform (imposes_encoding hS hgoal hgiven)).bind ?_
  rintro _ t' ⟨rfl, ht'⟩
  refine ensures_logOpening.bind ?_
  rintro - _ rfl
  exact ensures_pure.2 (ht'.congr fun v ↦ and_iff_right trivial)

end Generator

end Dialectical
