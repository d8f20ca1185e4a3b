import Dialectical.Proofs.Attempts
import Dialectical.Proofs.Engines
import Dialectical.Proofs.Sessions
import Dialectical.Sat.Lexicographic

/-!
# Fresh variables

A session makes a new variable of the first one that its solver does not know. What the solver knows
only grows, and it covers the clauses that were added, the ranges that were reserved and the
variables that were made before; so a new variable is none of these, whatever was asked in between
and however it ended (`Session.fresh_after_requests`).

Assumptions are covered only in part. Those that wait for the next check are not known to the solver
yet, and an engine that does not count assumed variables never learns of those that were used up
(`Session.uncounted`). A new variable may be one of these (`Session.fresh_of_uncounted`), and it is
in no other assumption.

One lemma says what a request changes (`Session.advances_carryOut`); the history is followed by
induction from it.
-/

namespace Dialectical

open Act Clause

variable {e : Engine}

/-- The engine counts the assumed variables, and it turns no call away, so it sees them all. -/
structure Engine.SeesAssumed (e : Engine) : Prop where
  counts : e.countsAssumed
  not_refuses : ∀ n, e.refuses n = false

/-! ### Solvers that were asked -/

namespace Solver

variable {s : Solver} {ls : List Literal} {E : Solver → Prop}

/-- What becomes of the known variables when a solver is asked: none is forgotten, and an engine
that sees the assumed ones knows them all. -/
structure Counts (e : Engine) (ls : List Literal) (s s' : Solver) : Prop where
  known_le : s.known ≤ s'.known
  span_le : e.SeesAssumed → span ls ≤ s'.known

/-- Covering the assumptions of a call is where an engine counts them or does not. -/
theorem ensures_cover_counts : (cover ls).Ensures e s (fun _ s' ↦ Counts e ls s s') E := by
  refine fun _ ↦ ⟨⟨?_, fun he ↦ ?_⟩, rfl⟩
  · show s.known ≤ if e.countsAssumed then max s.known (span ls) else s.known
    split
    · exact le_max_left _ _
    · exact le_refl _
  · show span ls ≤ if e.countsAssumed then max s.known (span ls) else s.known
    rw [if_pos he.counts]
    exact le_max_right _ _

/-- What is replied does not matter here, and neither does it matter whether it is true. -/
theorem ensures_reply_counts : (reply ls).Ensures e s (fun _ s' ↦ Counts e ls s s') E :=
  ensures_reply_of (fun hrefused ↦ ⟨le_refl _, fun he ↦ absurd he.not_refuses hrefused⟩)
    (ensures_call_of ensures_cover_counts fun _ hs' _ ↦ ⟨hs', rfl⟩)

end Solver

namespace Session

/-! ### Requests -/

/-- What a session can be asked for. -/
inductive Request where
  /-- To add a clause. -/
  | add (c : Clause)
  /-- To assume some literals for the next check. -/
  | assume (ls : List Literal)
  /-- To make room for a number of variables. -/
  | reserve (n : Nat)
  /-- To check whether there is a model. -/
  | satisfiable
  /-- To check whether there is a model, and to tell what it makes true. -/
  | witness (vs : List Variable)
  /-- To solve under some assumptions, besides those that are waiting. -/
  | solveUnder (ls : List Literal)
  /-- To make a new variable. -/
  | fresh
  deriving DecidableEq, Repr

namespace Request

/-- Carries out a request. Of what it results in, only a new variable is kept. -/
def carryOut : Request → Act Session (Option Variable)
  | add c => do
    Session.add c
    return none
  | assume ls => do
    Session.assume ls
    return none
  | reserve n => do
    Session.reserve n
    return none
  | satisfiable => do
    let _ ← Session.satisfiable
    return none
  | witness vs => do
    let _ ← Session.witness vs
    return none
  | solveUnder ls => do
    Session.assume ls
    let _ ← check
    return none
  | fresh => do return some (← Session.fresh)

/-- Carries out requests, each of them whatever became of those before. -/
def attemptAll (rs : List Request) : Act Session (List (Except Fault (Option Variable))) :=
  rs.mapM fun r ↦ r.carryOut.attempt

/-- The literals that a request assumes. -/
def assumed : Request → List Literal
  | assume ls => ls
  | solveUnder ls => ls
  | _ => []

/-- The assumptions that wait after a request, if some were waiting before it. A check uses them
up. -/
def waiting (r : Request) (ls : List Literal) : List Literal :=
  match r with
  | assume ls' => ls ++ ls'
  | satisfiable => []
  | witness _ => []
  | solveUnder _ => []
  | _ => ls

/-- The number of variables that covers what a request tells the solver. -/
def extent : Request → Nat
  | add c => span c
  | reserve n => n
  | _ => 0

end Request

/-! ### One request -/

variable {s s' : Session} {r : Request} {y : Except Fault (Option Variable)}

/-- **What a request changes.** No variable is forgotten; those of a new clause or range are known
afterwards, and so is a new variable, which was not known before. An assumption waits, unless it is
used up; then it is known, if the engine sees it. -/
structure Advances (e : Engine) (r : Request) (s : Session) (y : Except Fault (Option Variable))
    (s' : Session) : Prop where
  known_le : s.solver.known ≤ s'.solver.known
  extent_le : r.extent ≤ s'.solver.known
  pending_eq : s'.pending = r.waiting s.pending
  created : ∀ x, y = .ok (some x) → s.solver.known ≤ x ∧ x < s'.solver.known
  counted : e.SeesAssumed → ∀ l ∈ s.pending ++ r.assumed,
    l ∈ s'.pending ∨ l.var < s'.solver.known

/-- A request that tells the solver something, and asks it nothing. -/
theorem Advances.of_told {m : Nat} {D : List Clause} {y? : Option Variable}
    (hknown : s.solver.known ≤ m) (hextent : r.extent ≤ m) (hassumed : r.assumed = [])
    (hwaiting : r.waiting s.pending = s.pending)
    (hcreated : ∀ x ∈ y?, s.solver.known ≤ x ∧ x < m) :
    Advances e r s (.ok y?) (s.told m D) where
  known_le := hknown
  extent_le := hextent
  pending_eq := hwaiting.symm
  created x hx := hcreated x (Except.ok.inj hx)
  counted _ l hl := by
    rw [hassumed, List.append_nil] at hl
    exact .inl hl

/-- What a request that cannot fail ensures. -/
theorem Advances.of_ensures (h : r.carryOut.Ensures e s (fun y? ↦ Advances e r s (.ok y?))
    fun _ ↦ False) (j : Journal) :
    Advances e r s (r.carryOut.run e s j).result (r.carryOut.run e s j).state := by
  obtain ⟨y?, s', i, hrun, hs'⟩ := h.exists_run j
  rw [hrun]
  exact hs'

/-- A request that checks what waits and what it assumes itself, and makes no variable. -/
theorem Advances.of_check {f : Answer → Except Fault (Option Variable)}
    (hf : ∀ answer x, f answer ≠ .ok (some x)) (hextent : r.extent = 0)
    (hwaiting : r.waiting s.pending = []) {j : Journal}
    (hcheck : r.carryOut.run e s j = (check >>= fun answer ↦ ofExcept (f answer)).run e
      { s with pending := s.pending ++ r.assumed } j) :
    Advances e r s (r.carryOut.run e s j).result (r.carryOut.run e s j).state := by
  obtain ⟨answer, t, i, hrun, hcounts, -⟩ := exists_run_check (e := e)
    (s := { s with pending := s.pending ++ r.assumed }) Solver.ensures_reply_counts j
  rw [hcheck, run_bind, hrun]
  exact
    { known_le := hcounts.known_le
      extent_le := hextent ▸ Nat.zero_le _
      pending_eq := hwaiting.symm
      created := fun x hx ↦ absurd hx (hf answer x)
      counted := fun he l hl ↦ .inr (span_le_iff.1 (hcounts.span_le he) l hl) }

/-- **One request**, whatever becomes of it. -/
theorem advances_carryOut (e : Engine) (r : Request) (s : Session) (j : Journal) :
    Advances e r s (r.carryOut.run e s j).result (r.carryOut.run e s j).state := by
  -- nothing is assumed by a check that only looks at what waits
  have hnone : { s with pending := s.pending ++ [] } = s := by rw [List.append_nil]
  cases r with
  | add c =>
    refine .of_ensures (ensures_add.bind ?_) j
    rintro - _ rfl
    exact ensures_pure.2 (.of_told (le_max_left _ _) (le_max_right _ _) rfl rfl (by simp))
  | reserve n =>
    refine .of_ensures (ensures_reserve.bind ?_) j
    rintro - _ rfl
    exact ensures_pure.2 (.of_told (le_max_left _ _) (le_max_right _ _) rfl rfl (by simp))
  | fresh =>
    refine .of_ensures (ensures_fresh.bind ?_) j
    rintro _ _ ⟨rfl, rfl⟩
    exact ensures_pure.2 (.of_told (Nat.le_succ _) (Nat.zero_le _) rfl rfl (by simp))
  | assume ls =>
    exact
      { known_le := le_refl _
        extent_le := Nat.zero_le _
        pending_eq := rfl
        created := fun x hx ↦ by cases hx
        counted := fun _ l hl ↦ .inl hl }
  | satisfiable =>
    refine .of_check (f := fun answer ↦ answer.isSatisfiable.map fun _ ↦ none) ?_ rfl rfl ?_
    · rintro (m | - | -) x <;> exact fun hx ↦ by cases hx
    · rw [Request.carryOut, satisfiable, bind_assoc, show Request.satisfiable.assumed = [] from rfl,
        hnone]
      congr
      funext answer
      cases answer <;> rfl
  | witness vs =>
    refine .of_check (f := fun answer ↦ answer.model?.map fun _ ↦ none) ?_ rfl rfl ?_
    · rintro (m | - | -) x <;> exact fun hx ↦ by cases hx
    · rw [Request.carryOut, witness, bind_assoc, show (Request.witness vs).assumed = [] from rfl,
        hnone]
      congr
      funext answer
      cases answer <;> rfl
  | solveUnder ls =>
    exact .of_check (f := fun _ ↦ .ok none) (by simp) rfl rfl rfl

/-! ### Histories -/

/-- The assumptions that wait after some requests. -/
def waiting (rs : List Request) : List Literal := rs.foldl (fun ls r ↦ r.waiting ls) []

/-- All assumptions of some requests, whether they wait or are used up. -/
def assumed (rs : List Request) : List Literal := rs.flatMap Request.assumed

/-- The assumptions that the solver does not know: those that wait, and those that were used up as
well if the engine does not count them. -/
def uncounted (e : Engine) (rs : List Request) : List Literal :=
  if e.countsAssumed then waiting rs else assumed rs

variable {rs : List Request} {ys : List (Except Fault (Option Variable))} {l : Literal}

/-- The last request decides what waits. -/
theorem waiting_concat (rs : List Request) (r : Request) :
    waiting (rs ++ [r]) = r.waiting (waiting rs) := by
  rw [waiting, List.foldl_concat]
  rfl

theorem mem_assumed_concat : l ∈ assumed (rs ++ [r]) ↔ l ∈ assumed rs ∨ l ∈ r.assumed := by
  simp [assumed]

/-- What waits after a request waited before, or was assumed by it. -/
theorem Request.mem_of_mem_waiting (r : Request) {ls : List Literal} (h : l ∈ r.waiting ls) :
    l ∈ ls ∨ l ∈ r.assumed := by
  cases r with
  | assume ls' => exact List.mem_append.1 h
  | satisfiable | witness | solveUnder => exact absurd h List.not_mem_nil
  | add | reserve | fresh => exact .inl h

/-- Only assumptions wait. -/
theorem waiting_subset_assumed (rs : List Request) : waiting rs ⊆ assumed rs := by
  induction rs using List.reverseRecOn with
  | nil => exact List.Subset.refl _
  | append_singleton rs r ih =>
    intro l hl
    rw [waiting_concat] at hl
    exact mem_assumed_concat.2 ((r.mem_of_mem_waiting hl).imp_left fun hl ↦ ih hl)

/-- **What a session remembers of its history**, and of the variables `ys` that it made. -/
structure Remembers (e : Engine) (rs : List Request) (ys : List (Except Fault (Option Variable)))
    (s : Session) : Prop where
  pending_eq : s.pending = waiting rs
  extent_le : ∀ r ∈ rs, r.extent ≤ s.solver.known
  created_lt : ∀ x, .ok (some x) ∈ ys → x < s.solver.known
  counted : e.SeesAssumed → ∀ l ∈ assumed rs, l ∈ waiting rs ∨ l.var < s.solver.known

/-- **One more request.** What is remembered is not forgotten, and the request is added to it. -/
theorem Remembers.advance (h : Remembers e rs ys s) (hr : Advances e r s y s') :
    Remembers e (rs ++ [r]) (ys ++ [y]) s' where
  pending_eq := by rw [hr.pending_eq, h.pending_eq, waiting_concat]
  extent_le r' hr' := by
    rcases List.mem_append.1 hr' with hr' | hr'
    · exact (h.extent_le r' hr').trans hr.known_le
    · exact List.mem_singleton.1 hr' ▸ hr.extent_le
  created_lt x hx := by
    rcases List.mem_append.1 hx with hx | hx
    · exact (h.created_lt x hx).trans_le hr.known_le
    · exact (hr.created x (List.mem_singleton.1 hx).symm).2
  counted he l hl := by
    have hcounted := hr.counted he l
    rw [hr.pending_eq, h.pending_eq, ← waiting_concat] at hcounted
    rcases mem_assumed_concat.1 hl with hl | hl
    · rcases h.counted he l hl with hl | hl
      · exact hcounted (List.mem_append_left _ hl)
      · exact .inr (hl.trans_le hr.known_le)
    · exact hcounted (List.mem_append_right _ hl)

/-- **Any number of requests**, by induction on it. -/
theorem exists_run_requests (hs : Remembers e [] [] s) (rs : List Request) (j : Journal) :
    ∃ ys s' i, (Request.attemptAll rs).run e s j = ⟨.ok ys, s', i⟩ ∧
      Remembers e rs ys s' :=
  exists_run_mapM_attempt_along (Φ := Remembers e)
    (fun _ _ s r j h ↦ h.advance (advances_carryOut e r s j)) [] [] hs rs j

/-- A session that was just opened has nothing to remember. -/
theorem remembers_nil {s : Session} (hs : s.pending = []) : Remembers e [] [] s where
  pending_eq := hs
  extent_le _ hr := absurd hr List.not_mem_nil
  created_lt _ hx := absurd hx List.not_mem_nil
  counted _ _ hl := absurd hl List.not_mem_nil

/-- **A new variable is new but for assumptions that the solver does not know.** Whatever a session
was asked for since it was opened, and however that ended: the variable is in no clause that was
added and in no range that was reserved, and it was not made before. It is in an assumption if and
only if it is in one that the solver does not know: one that waits, or, if the engine does not count
assumed variables, any. An engine that counts them must see every call.

A new variable is meant to be one that was never used. That it may be in an assumption is shown by
`fresh_of_uncounted`. -/
theorem fresh_after_requests (e : Engine) (he : e.countsAssumed → ∀ n, e.refuses n = false)
    (rs : List Request) (j : Journal) :
    ∃ s₀ j₀ ys s i x s' i', acquireBare.run e () j = ⟨.ok s₀, (), j₀⟩ ∧
      (Request.attemptAll rs).run e s₀ j₀ = ⟨.ok ys, s, i⟩ ∧
      Session.fresh.run e s i = ⟨.ok x, s', i'⟩ ∧
      (∀ c, .add c ∈ rs → ∀ l ∈ c, l.var ≠ x) ∧
      (∀ n, .reserve n ∈ rs → n ≤ x) ∧
      .ok (some x) ∉ ys ∧
      ((∃ l ∈ assumed rs, l.var = x) ↔ ∃ l ∈ uncounted e rs, l.var = x) := by
  have hopened : Remembers e [] [] ⟨⟨j.opened, 0, 0, [], e.listeners⟩, []⟩ := remembers_nil rfl
  obtain ⟨ys, s, i, hrun, hs⟩ := exists_run_requests hopened rs (j.note (.opened j.opened))
  obtain ⟨x, s', i', hfresh, rfl, -⟩ :=
    (ensures_fresh (e := e) (s := s) (E := fun _ ↦ False)).exists_run i
  refine ⟨_, _, ys, s, i, _, s', i', rfl, hrun, hfresh, fun c hc l hl ↦ ?_,
    fun n hn ↦ hs.extent_le _ hn, fun hx ↦ ?_, ?_⟩
  · exact Nat.ne_of_lt (span_le_iff.1 (hs.extent_le _ hc) l hl)
  · exact absurd (hs.created_lt _ hx) (Nat.lt_irrefl _)
  · rw [uncounted]
    split
    next hcounts =>
      constructor
      · rintro ⟨l, hl, hx⟩
        rcases hs.counted ⟨hcounts, he hcounts⟩ l hl with hl | hlt
        · exact ⟨l, hl, hx⟩
        · exact absurd hx (Nat.ne_of_lt hlt)
      · rintro ⟨l, hl, hx⟩
        exact ⟨l, waiting_subset_assumed rs hl, hx⟩
    next => exact Iff.rfl

/-- The case of an assumption that was used up by a check, with an engine that counts it. -/
theorem fresh_after_requests_usedUp :
    (Engine.leastOccurring.countsAssumed → ∀ n, Engine.leastOccurring.refuses n = false) ∧
    ∃ s₀ j₀ ys s i x s' i', acquireBare.run .leastOccurring () .empty = ⟨.ok s₀, (), j₀⟩ ∧
      (Request.attemptAll [.add [Variable.pos 3], .fresh, .assume [Variable.neg 7],
        .satisfiable]).run .leastOccurring s₀ j₀ = ⟨.ok ys, s, i⟩ ∧
      Session.fresh.run .leastOccurring s i = ⟨.ok x, s', i'⟩ ∧
      x ≠ 3 ∧ x ≠ 7 ∧ .ok (some x) ∉ ys := by
  have he : Engine.leastOccurring.countsAssumed → ∀ n, Engine.leastOccurring.refuses n = false :=
    fun _ _ ↦ rfl
  obtain ⟨s₀, j₀, ys, s, i, x, s', i', hopen, hrun, hfresh, hclauses, -, hcreated, hassumed⟩ :=
    fresh_after_requests .leastOccurring he [.add [Variable.pos 3], .fresh,
      .assume [Variable.neg 7], .satisfiable] .empty
  refine ⟨he, s₀, j₀, ys, s, i, x, s', i', hopen, hrun, hfresh, ?_, ?_, hcreated⟩
  · exact (hclauses [Variable.pos 3] (by simp) (Variable.pos 3) (by simp)).symm
  · -- nothing waits, so no assumption is unknown
    rintro rfl
    obtain ⟨l, hl, -⟩ := hassumed.1 ⟨Variable.neg 7, by decide, rfl⟩
    exact absurd hl List.not_mem_nil

/-- **A new variable may be one that was assumed**: after a check that used the assumption up, with
an engine that does not count it, and before a check, with one that does. -/
theorem fresh_of_uncounted :
    (acquireBare.run .exhaustive () .empty).result = .ok ⟨⟨0, 0, 0, [], []⟩, []⟩ ∧
    (∃ s i, (Request.attemptAll [.assume [Variable.pos 0], .satisfiable, .fresh]).run .exhaustive
      ⟨⟨0, 0, 0, [], []⟩, []⟩ .empty = ⟨.ok [.ok none, .ok none, .ok (some 0)], s, i⟩) ∧
    (acquireBare.run .leastOccurring () .empty).result = .ok ⟨⟨0, 0, 0, [], []⟩, []⟩ ∧
    ∃ s i, (Request.attemptAll [.assume [Variable.pos 0], .fresh]).run .leastOccurring
      ⟨⟨0, 0, 0, [], []⟩, []⟩ .empty = ⟨.ok [.ok none, .ok (some 0)], s, i⟩ :=
  ⟨rfl, ⟨_, _, rfl⟩, rfl, _, _, rfl⟩

end Session

end Dialectical
