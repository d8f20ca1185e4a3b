import Dialectical.Proofs.Engines
import Dialectical.Proofs.Listings

/-!
# Requests to a generator

Between two requests for a candidate, others may give clauses to a generator. Clauses over the
argument atoms speak of the interpretations that these atoms stand for (`Atoms.valueIn`), so what a
generator has left to give is a set that can be written down: the candidates that satisfy the
clauses given so far and were not given yet (`Generator.left`).

One request keeps to this (`Generator.Serves.next`, `Generator.Serves.update`), and so does any list
of them (`Generator.Serves.answers`). A candidate and clauses both make the set smaller. So once it
is empty, which is when there was no answer, it stays empty.
-/

namespace Dialectical

open Act Clause

variable {σ : Type} {e : Engine}

/-! ### Clauses over the argument atoms -/

namespace Atoms

variable {A : Atoms} {I : Interpretation} {cs : List Clause}

/-- The value of an argument atom in an interpretation; other variables are false. -/
def valueIn (A : Atoms) (I : Interpretation) (x : Variable) : Bool :=
  match A.argument? x with
  | some (a, b) => I.status? a = some (.ofBool b)
  | none => false

/-- The valuation that an interpretation gives the atoms encodes it. -/
theorem encodes_valueIn (hI : I.size = A.size) : A.Encodes (A.valueIn I) I where
  size_eq := hI
  decides_iff a b ha := by
    rw [valueIn, argument?_eq_some_iff.2 ⟨ha, rfl⟩]
    exact decide_eq_true_iff

/-- What encodes an interpretation agrees with it on the argument atoms. -/
theorem Encodes.agreeBelow_valueIn {v : Variable → Bool} (h : A.Encodes v I) :
    AgreeBelow (2 * A.size) v (A.valueIn I) := by
  intro x hx
  have hargument : A.argument? x = some (x / 2, x % 2 == 0) := by rw [argument?, if_pos hx]
  obtain ⟨ha, hatom⟩ := argument?_eq_some_iff.1 hargument
  rw [hatom, Bool.eq_iff_iff, h.decides_iff _ _ ha,
    (encodes_valueIn h.size_eq).decides_iff _ _ ha]

/-- **Clauses over the argument atoms** select what satisfies them. -/
theorem selects_of_ofArguments (hcs : ∀ c ∈ cs, ∀ l ∈ c, l.var ∈ A.ofArguments) :
    A.Selects cs {I | ∀ c ∈ cs, c.holds (A.valueIn I)} := by
  have hspan : ∀ c ∈ cs, span c ≤ 2 * A.size := by
    intro c hc
    refine span_le_iff.2 fun l hl ↦ ?_
    obtain ⟨a, ha, b, hb⟩ := mem_ofArguments.1 (hcs c hc l hl)
    exact hb ▸ atom_lt ha
  refine ⟨hspan, fun v I h ↦ forall₂_congr fun c hc ↦ ?_⟩
  rw [holds_congr h.agreeBelow_valueIn (hspan c hc)]

end Atoms

/-! ### Requests -/

/-- The semantics whose models a generator for this goal is to produce. -/
def Goal.semantics : Goal → Semantics
  | .conflictFree => .conflictFree
  | .twoValued => .twoValued
  | .ground => .ground

namespace Generator

/-- What a generator can be asked to do while it is in use. -/
inductive Request where
  /-- To give the next candidate. -/
  | next
  /-- To take some clauses. -/
  | update (cs : List Clause)

/-- The clauses in a list of requests. -/
def Request.clauses (rs : List Request) : List Clause :=
  rs.flatMap fun
    | next => []
    | update cs => cs

/-- Gives some clauses to a generator. -/
def update (S : Setting) (cs : List Clause) : Act Generator Unit :=
  use S (Session.perform (Encoder.clauses cs))

/-- The answers to the requests for candidates among some requests. -/
def answers (S : Setting) : List Request → Act Generator (List (Option Interpretation))
  | [] => pure []
  | .next :: rs => do
    let I? ← next S
    let as ← answers S rs
    return I? :: as
  | .update cs :: rs => do
    update S cs
    answers S rs

variable {S : Setting} {goal : Goal} {given : Option Interpretation} {cs cs' : List Clause}
  {as : List (Option Interpretation)} {g : Generator} {I : Interpretation}
  {R B : Set Interpretation}

/-! ### What a generator supplies -/

/-- The generator offers these interpretations, or will do so when it is opened. -/
def Supplies (S : Setting) (e : Engine) (goal : Goal) (given : Option Interpretation)
    (R : Set Interpretation) (g : Generator) : Prop :=
  g.Keeps S e goal given fun s ↦ s.session.Offers S.atoms R

/-- **A request** draws from what remains, and takes nothing away when it fails. -/
theorem Supplies.next (h : g.Supplies S e goal given R) (he : e.Sound) (hgoal : goal ≠ .ground) :
    (Generator.next S).Ensures e g
      (fun I? g' ↦ ∃ R', Drawn R I? R' ∧ g'.Supplies S e goal given R')
      fun g' ↦ g'.Supplies S e goal given R := by
  have hwitness : (use S (nextWitness S)).Ensures e g
      (fun I? g' ↦ ∃ R', Drawn R I? R' ∧ g'.Supplies S e goal given R')
      fun g' ↦ g'.Supplies S e goal given R := by
    refine (h.use (x := NamedSession.onSession (nextWitness S))
      (Ψ := fun I? s ↦ ∃ R', Drawn R I? R' ∧ s.session.Offers S.atoms R') fun s hs ↦ ?_).mono ?_ ?_
    · exact NamedSession.ensures_onSession.2 (ensures_nextWitness hs he)
    · intro I? g' hg'
      obtain ⟨hgoal', hgiven', s, hphase, R', hdrawn, hs⟩ := hg'
      exact ⟨R', hdrawn, Opened.keeps ⟨hgoal', hgiven', s, hphase, hs⟩⟩
    · exact fun g' hg' ↦ hg'.keeps
  rw [Generator.next, ensures_get_bind, h.goal_eq]
  cases goal with
  | conflictFree => exact hwitness
  | twoValued => exact hwitness
  | ground => exact absurd rfl hgoal

/-- **An update** takes away what the clauses do not select. -/
theorem Supplies.update (h : g.Supplies S e goal given R) (hcs : S.atoms.Selects cs B) :
    (Generator.update S cs).Ensures e g (fun _ g' ↦ g'.Supplies S e goal given (R ∩ B))
      fun g' ↦ g'.Supplies S e goal given R := by
  refine (h.use (x := NamedSession.onSession (Session.perform (Encoder.clauses cs)))
    (Ψ := fun _ s ↦ s.session.Offers S.atoms (R ∩ B)) fun s hs ↦ ?_).mono ?_ ?_
  · exact NamedSession.ensures_onSession.2 (hs.perform hcs)
  · exact fun _ g' hg' ↦ hg'.keeps
  · exact fun g' hg' ↦ hg'.keeps

/-! ### What is left -/

/-- What is left to give, after some clauses and some answers: the models that extend the given
interpretation, satisfy the clauses and were not given yet. -/
def left (S : Setting) (goal : Goal) (given : Option Interpretation) (cs : List Clause)
    (as : List (Option Interpretation)) : Set Interpretation :=
  {I | S.framework.IsModel goal.semantics I ∧ (∀ J ∈ given, J ≤ I) ∧
    (∀ c ∈ cs, c.holds (S.atoms.valueIn I)) ∧ some I ∉ as}

/-- The candidates are the models of the goal that extend the given interpretation, if there is one.
-/
theorem mem_candidates_iff (hgoal : goal ≠ .ground) : I ∈ candidates S goal given ↔
    S.framework.IsModel goal.semantics I ∧ ∀ J ∈ given, J ≤ I := by
  cases goal with
  | conflictFree => exact mem_candidates_conflictFree
  | twoValued => exact mem_candidates_twoValued
  | ground => exact absurd rfl hgoal

theorem left_nil (hgoal : goal ≠ .ground) :
    left S goal given [] [] = candidates S goal given := by
  ext I
  rw [mem_candidates_iff hgoal]
  simp [left]

/-- Clauses leave what makes them hold. -/
theorem left_append_clauses : left S goal given (cs ++ cs') as =
    left S goal given cs as ∩ {I | ∀ c ∈ cs', c.holds (S.atoms.valueIn I)} := by
  ext I
  simp only [left, Set.mem_ofPred_eq, Set.mem_inter_iff, List.forall_mem_append]
  tauto

/-- A candidate that was handed out does not remain. -/
theorem left_append_some : left S goal given cs (as ++ [some I]) =
    left S goal given cs as \ {I} := by
  ext J
  simp only [left, Set.mem_ofPred_eq, Set.mem_sdiff, Set.mem_singleton_iff, List.mem_append,
    List.mem_singleton, Option.some.injEq, not_or]
  tauto

theorem left_append_none : left S goal given cs (as ++ [none]) = left S goal given cs as := by
  ext J
  simp [left]

/-- The generator gave these answers and took these clauses: it supplies what is left, and if there
was no answer this is nothing. -/
structure Serves (S : Setting) (e : Engine) (goal : Goal) (given : Option Interpretation)
    (cs : List Clause) (as : List (Option Interpretation)) (g : Generator) : Prop where
  supplies : g.Supplies S e goal given (left S goal given cs as)
  eq_empty : none ∈ as → left S goal given cs as = ∅

/-- A generator that was just made serves its goal. -/
theorem serves_new (hS : S.Fits) (hgoal : goal ≠ .ground)
    (hgiven : ∀ J ∈ given, J.size = S.atoms.size) :
    (new goal given).Serves S e goal given [] [] where
  supplies := left_nil hgoal ▸ Pipeline.Source.keeps_new_unpruned hS hgoal hgiven
  eq_empty h := absurd h List.not_mem_nil

/-- **A candidate** is given if one is left. -/
theorem Serves.next (h : g.Serves S e goal given cs as) (he : e.Sound) (hgoal : goal ≠ .ground) :
    (Generator.next S).Ensures e g
      (fun I? g' ↦ (∃ R', Drawn (left S goal given cs as) I? R') ∧
        g'.Serves S e goal given cs (as ++ [I?]))
      fun _ ↦ True := by
  refine (h.supplies.next he hgoal).mono (fun I? g' hg' ↦ ?_) fun _ _ ↦ trivial
  obtain ⟨R', hdrawn, hg'⟩ := hg'
  refine ⟨⟨R', hdrawn⟩, ?_⟩
  cases I? with
  | none =>
    obtain ⟨hempty, rfl⟩ := hdrawn
    rw [← hempty, ← left_append_none] at hg'
    exact ⟨hg', fun _ ↦ left_append_none.trans hempty⟩
  | some I =>
    obtain ⟨hI, rfl⟩ := hdrawn
    rw [← left_append_some] at hg'
    refine ⟨hg', fun hnone ↦ ?_⟩
    have hempty := h.eq_empty (by simpa using hnone)
    exact absurd (hempty ▸ hI) (Set.notMem_empty I)

/-- **Clauses** take out what does not satisfy them. -/
theorem Serves.update (h : g.Serves S e goal given cs as)
    (hcs' : ∀ c ∈ cs', ∀ l ∈ c, l.var ∈ S.atoms.ofArguments) :
    (Generator.update S cs').Ensures e g (fun _ g' ↦ g'.Serves S e goal given (cs ++ cs') as)
      fun _ ↦ True := by
  refine (h.supplies.update (Atoms.selects_of_ofArguments hcs')).mono (fun _ g' hg' ↦ ?_)
    fun _ _ ↦ trivial
  rw [← left_append_clauses] at hg'
  refine ⟨hg', fun hnone ↦ ?_⟩
  rw [left_append_clauses, h.eq_empty hnone, Set.empty_inter]

/-- **Any requests**, by induction on their list. -/
theorem Serves.answers {rs : List Request} (h : g.Serves S e goal given cs as) (he : e.Sound)
    (hgoal : goal ≠ .ground)
    (hrs : ∀ c ∈ Request.clauses rs, ∀ l ∈ c, l.var ∈ S.atoms.ofArguments) :
    (Generator.answers S rs).Ensures e g
      (fun as' g' ↦ g'.Serves S e goal given (cs ++ Request.clauses rs) (as ++ as'))
      fun _ ↦ True := by
  induction rs generalizing g cs as with
  | nil =>
    refine ensures_pure.2 ?_
    rw [Request.clauses, List.flatMap_nil, List.append_nil, List.append_nil]
    exact h
  | cons r rs ih =>
    have hrest : ∀ c ∈ Request.clauses rs, ∀ l ∈ c, l.var ∈ S.atoms.ofArguments :=
      fun c hc ↦ hrs c (List.mem_append_right _ hc)
    cases r with
    | next =>
      refine (h.next he hgoal).bind fun I? g₁ h₁ ↦ (ih h₁.2 hrest).bind fun as' g₂ h₂ ↦ ?_
      rw [List.append_assoc] at h₂
      exact ensures_pure.2 h₂
    | update cs' =>
      have hcs' : ∀ c ∈ cs', ∀ l ∈ c, l.var ∈ S.atoms.ofArguments :=
        fun c hc ↦ hrs c (List.mem_append_left _ hc)
      refine (h.update hcs').bind fun _ g₁ h₁ ↦ (ih h₁ hrest).weaken fun as' g₂ h₂ ↦ ?_
      rwa [List.append_assoc] at h₂

/-- **After any requests** a candidate is given if one is left, and none if there was none before.
-/
theorem Serves.answers_next {rs : List Request} (h : g.Serves S e goal given [] []) (he : e.Sound)
    (hgoal : goal ≠ .ground)
    (hrs : ∀ c ∈ Request.clauses rs, ∀ l ∈ c, l.var ∈ S.atoms.ofArguments) :
    Ensures e (do
        let as ← Generator.answers S rs
        let I? ← Generator.next S
        return (as, I?)) g
      (fun a _ ↦ (∀ I, a.2 = some I → I ∈ left S goal given (Request.clauses rs) a.1) ∧
        (a.2 = none ↔ left S goal given (Request.clauses rs) a.1 = ∅) ∧
        (none ∈ a.1 → a.2 = none))
      fun _ ↦ True := by
  refine (h.answers he hgoal hrs).bind fun as g₁ h₁ ↦ ?_
  refine (h₁.next he hgoal).bind fun I? g₂ h₂ ↦ ensures_pure.2 ?_
  obtain ⟨⟨R', hdrawn⟩, -⟩ := h₂
  exact ⟨hdrawn.mem, hdrawn.eq_none_iff, fun hnone ↦ hdrawn.eq_none_iff.2 (h₁.eq_empty hnone)⟩

/-! ### Without clauses -/

/-- Asking until there is no answer gives everything that is supplied, each of it once. -/
theorem Supplies.collect (h : g.Supplies S e goal given R) (he : e.Sound) (hgoal : goal ≠ .ground)
    (hR : R.Finite) {n : Nat} (hn : R.ncard < n) :
    (Act.collect (Generator.next S) n).Ensures e g
      (fun Is _ ↦ Is.Nodup ∧ ∀ I, I ∈ Is ↔ I ∈ R) fun _ ↦ True := by
  induction n generalizing g R with
  | zero => exact absurd hn (Nat.not_lt_zero _)
  | succ n ih =>
    refine ((h.next he hgoal).weakenFault fun _ _ ↦ trivial).bind fun I? g₁ h₁ ↦ ?_
    obtain ⟨R', hdrawn, h₁⟩ := h₁
    cases I? with
    | none =>
      obtain ⟨rfl, -⟩ := hdrawn
      exact ensures_pure.2 ⟨List.nodup_nil, by simp⟩
    | some I =>
      obtain ⟨hI, rfl⟩ := hdrawn
      have hcard := Set.ncard_sdiff_singleton_add_one hI hR
      refine (ih h₁ (hR.subset Set.sdiff_subset) (by omega)).bind fun Is g₂ h₂ ↦ ensures_pure.2 ?_
      refine ⟨List.nodup_cons.2 ⟨fun hIs ↦ ((h₂.2 I).1 hIs).2 rfl, h₂.1⟩, fun J ↦ ?_⟩
      rw [List.mem_cons, h₂.2]
      by_cases hJ : J = I
      · simp [hJ, hI]
      · simp [hJ]

/-- If no clauses are given, all candidates are supplied. -/
theorem Serves.ensures_all (h : g.Serves S e goal given [] []) (hS : S.Fits) (he : e.Sound)
    (hgoal : goal ≠ .ground) :
    (Generator.all S).Ensures e g
      (fun Is _ ↦ Is.Nodup ∧
        ∀ I, I ∈ Is ↔ S.framework.IsModel goal.semantics I ∧ ∀ J ∈ given, J ≤ I)
      fun _ ↦ True := by
  have hsupplies : g.Supplies S e goal given (candidates S goal given) :=
    left_nil hgoal ▸ h.supplies
  have hsize : ∀ I ∈ candidates S goal given, I.size = S.atoms.size :=
    fun I hI ↦ size_eq_of_mem_candidates hS hI
  have hfinite : (candidates S goal given).Finite :=
    (Interpretation.finite_size _).subset hsize
  refine (hsupplies.collect he hgoal hfinite (Setting.ncard_lt_budget hsize)).weaken ?_
  intro Is g' h'
  exact ⟨h'.1, fun I ↦ (h'.2 I).trans (mem_candidates_iff hgoal)⟩

/-! ### The promise of a generator -/

/-- **What a generator promises.** Whatever it was asked before and whatever models the engine
chooses, a generator that is asked for a candidate gives one that is left, and none if and only if
none is left; once there was none, there is none from then on. If it is given no clauses, it gives
all its candidates, each of them once. -/
theorem next_of_requests (F : Framework) (goal : Goal) (hgoal : goal ≠ .ground)
    (given : Option Interpretation) (hgiven : ∀ J ∈ given, J.size = F.size) (e : Engine)
    (he : e.Correct) (j : Journal) :
    (∀ rs : List Request,
      (∀ c ∈ Request.clauses rs, ∀ l ∈ c, l.var ∈ (Atoms.of F).ofArguments) →
      ∃ as I? g j',
        (do
          let as ← answers (.of F) rs
          let I? ← Generator.next (.of F)
          return (as, I?)).run e (new goal given) j = ⟨.ok (as, I?), g, j'⟩ ∧
        (∀ I, I? = some I → I ∈ left (.of F) goal given (Request.clauses rs) as) ∧
        (I? = none ↔ left (.of F) goal given (Request.clauses rs) as = ∅) ∧
        (none ∈ as → I? = none)) ∧
    ∃ Is g j', (Generator.all (.of F)).run e (new goal given) j = ⟨.ok Is, g, j'⟩ ∧ Is.Nodup ∧
      ∀ I, I ∈ Is ↔ F.IsModel goal.semantics I ∧ ∀ J ∈ given, J ≤ I := by
  have hS := Setting.fits_of F
  have hnew : (new goal given).Serves (.of F) e goal given [] [] := serves_new hS hgoal hgiven
  constructor
  · intro rs hrs
    obtain ⟨⟨as, I?⟩, g, j', hrun, hanswer⟩ :=
      (hnew.answers_next he.sound hgoal hrs).exists_ok he.decisive j
    exact ⟨as, I?, g, j', hrun, hanswer⟩
  · exact (hnew.ensures_all hS he.sound hgoal).exists_ok he.decisive j

/-- The case of two arguments that exclude each other, one of which is to be undecided: a clause is
given after the first candidate, and one more after the second. -/
theorem next_of_requests_mutualExclusion :
    Goal.conflictFree ≠ .ground ∧
    (∀ J ∈ (none : Option Interpretation), J.size = Framework.mutualExclusion.size) ∧
    Engine.exhaustive.Correct ∧
    (∀ c ∈ Request.clauses [.next, .update [[Variable.neg 0]], .next, .update [[Variable.neg 1]]],
      ∀ l ∈ c, l.var ∈ (Atoms.of .mutualExclusion).ofArguments) ∧
    ∃ as I? g j',
      (do
        let as ← answers (.of .mutualExclusion)
          [.next, .update [[Variable.neg 0]], .next, .update [[Variable.neg 1]]]
        let I? ← Generator.next (.of .mutualExclusion)
        return (as, I?)).run .exhaustive (new .conflictFree none) .empty = ⟨.ok (as, I?), g, j'⟩ ∧
      (I? = none ↔ left (.of .mutualExclusion) .conflictFree none
        [[Variable.neg 0], [Variable.neg 1]] as = ∅) := by
  have he := Engine.exhaustive_correct
  have hgiven := Framework.size_eq_of_none (F := .mutualExclusion)
  have hrs : ∀ c ∈ Request.clauses
      [.next, .update [[Variable.neg 0]], .next, .update [[Variable.neg 1]]],
      ∀ l ∈ c, l.var ∈ (Atoms.of .mutualExclusion).ofArguments := by decide
  obtain ⟨as, I?, g, j', hrun, -, hnone, -⟩ := (next_of_requests .mutualExclusion .conflictFree
    Goal.noConfusion none hgiven _ he .empty).1 _ hrs
  exact ⟨Goal.noConfusion, hgiven, he, hrs, as, I?, g, j', hrun, hnone⟩

end Generator

end Dialectical
