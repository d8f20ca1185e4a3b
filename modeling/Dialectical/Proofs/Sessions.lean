import Dialectical.Proofs.Encoders
import Dialectical.Proofs.Ensures
import Dialectical.Sat.Session

/-!
# What sessions know

A session is spoken of by what its clauses mean. `Session.Means s k P` says that the session `s` is
ready for a question and that its clauses say exactly `P` of the first `k` variables. Carrying out
an encoding adds the condition that it imposes (`Means.perform`); asking a question changes neither
the clauses nor, for this reason, the meaning (`Means.asked`), whatever the answer is.

The answers are those of the engine. Of the engine it is used that its answers are true, and that it
does not give up if it decides every problem.
-/

namespace Dialectical

open Act Clause

variable {σ α : Type} {e : Engine}

/-! ### Answers -/

/-- The valuation in which exactly the variables are true to which an assignment gives this value.
-/
def Assignment.valuation (m : Assignment) (x : Variable) : Bool := m.value x = some true

/-- The literals that an assignment makes true hold under its valuation. -/
theorem Assignment.holds_of_makes {m : Assignment} {l : Literal} (h : m.makes l) :
    l.holds m.valuation := by
  have hl : m.value l.var = some l.positive := by simpa [makes] using h
  rw [Literal.holds, valuation, hl]
  cases l.positive <;> rfl

/-- Which variables are true is read off the valuation. -/
theorem Assignment.trueAmong_eq (m : Assignment) (xs : List Variable) :
    m.trueAmong xs = xs.filter m.valuation := rfl

/-- An assignment that answers a problem gives a valuation that solves it. -/
theorem Problem.AnsweredBy.solvedBy {p : Problem} {m : Assignment} (h : p.AnsweredBy m) :
    p.SolvedBy m.valuation := by
  refine ⟨fun c hc ↦ holds_iff.2 ?_, fun l hl ↦ Assignment.holds_of_makes (h.2 l hl)⟩
  obtain ⟨l, hl, hm⟩ := h.1 c hc
  exact ⟨l, hl, Assignment.holds_of_makes hm⟩

/-- The clauses are satisfiable together with some assumptions. -/
def Solvable (cs : List Clause) (ls : List Literal) : Prop :=
  ∃ v, AllHold cs v ∧ ∀ l ∈ ls, l.holds v

/-! ### Solvers -/

namespace Solver

variable {s : Solver} {E : Solver → Prop}

/-- What a solver saw is noted, other than a call that it gave up. -/
theorem ensures_note {call : Nat → Event} (hcall : (call s.name).isUnanswered = false) :
    (note call).Ensures e s (fun _ s' ↦ s' = s) E := by
  intro j
  refine ⟨rfl, (j.unanswered_note (call s.name)).trans ?_⟩
  rw [hcall]
  rfl

/-- A solver changes, and this is noted. -/
theorem ensures_modify_note {f : Solver → Solver} {call : Nat → Event}
    (hcall : (call (f s).name).isUnanswered = false) :
    (do modify f; note call : Act Solver Unit).Ensures e s (fun _ s' ↦ s' = f s) E :=
  ensures_modify_bind.2 (ensures_note hcall)

/-- A solver that was asked: the clauses are those from before, and no variable was forgotten. -/
structure Asked (s s' : Solver) : Prop where
  clauses_eq : s'.clauses = s.clauses
  known_le : s.known ≤ s'.known

theorem Asked.refl (s : Solver) : s.Asked s := ⟨rfl, le_refl _⟩

/-- Telling listeners does not change a solver. -/
theorem ensures_notify {f : Listener → Act Solver Unit} {ls : List Listener}
    (hf : ∀ l s, (f l).Ensures e s (fun _ s' ↦ s' = s) E) :
    (ls.forM f).Ensures e s (fun _ s' ↦ s' = s) E :=
  ensures_forM (fun l _ s' hs' ↦ hs' ▸ hf l s') rfl

theorem ensures_notifyStart {n m : Nat} (l : Listener) (s : Solver) :
    (notifyStart n m l).Ensures e s (fun _ s' ↦ s' = s) E := by
  cases l with
  | recorder => exact (ensures_record (f := (·.hear (.start n m))) fun _ ↦ rfl).2 rfl
  | logger => exact ensures_log.2 rfl

theorem ensures_notifyFinish {verdict : Option Bool} (l : Listener) (s : Solver) :
    (notifyFinish verdict l).Ensures e s (fun _ s' ↦ s' = s) E := by
  cases l with
  | recorder => exact (ensures_record (f := (·.hear (.finish verdict))) fun _ ↦ rfl).2 rfl
  | logger => exact ensures_log.2 rfl

/-- Covering the variables of the question adds no clause. -/
theorem ensures_cover {ls : List Literal} : (cover ls).Ensures e s (fun _ s' ↦ s.Asked s') E := by
  refine fun _ ↦ ⟨⟨rfl, ?_⟩, rfl⟩
  show s.known ≤ if e.countsAssumed then max s.known (span ls) else s.known
  split
  · exact le_max_left _ _
  · exact le_refl _

/-- An answer to the question whether some clauses are satisfiable with some assumptions. -/
def Replies (e : Engine) (cs : List Clause) (ls : List Literal) (answer : Answer) : Prop :=
  (∃ n, answer.SoundFor ⟨n, cs, ls⟩) ∧ (answer = .unknown → ¬e.Decisive)

/-- A sound engine replies to the clauses and the assumptions it was given. -/
theorem ensures_consult (he : e.Sound) {ls : List Literal} : (consult ls).Ensures e s
    (fun answer s' ↦ Replies e s.clauses ls answer ∧ s' = s) E :=
  fun j ↦ ⟨⟨⟨⟨_, he (j.solves + 1) (s.problem ls)⟩, fun hu hd ↦ hd.2 _ _ hu⟩, rfl⟩, rfl⟩

/-- The listeners are told before and after, and change nothing. -/
theorem ensures_call_of {ls : List Literal} {P : Solver → Prop} {Q : Answer → Solver → Prop}
    (hcover : (cover ls).Ensures e s (fun _ ↦ P) E)
    (hconsult : ∀ s', P s' → (consult ls).Ensures e s' Q E) : (call ls).Ensures e s Q E := by
  rw [call, ensures_get_bind]
  refine (ensures_notify ensures_notifyStart).bind ?_
  rintro - _ rfl
  refine hcover.bind fun _ s' hs' ↦ (hconsult s' hs').bind fun answer s'' hanswer ↦ ?_
  refine (ensures_notify ensures_notifyFinish).bind ?_
  rintro - _ rfl
  exact ensures_pure.2 hanswer

/-- **A call** gives such a reply, with the listeners told before and after. -/
theorem ensures_call (he : e.Sound) {ls : List Literal} : (call ls).Ensures e s
    (fun answer s' ↦ Replies e s.clauses ls answer ∧ s.Asked s') E := by
  refine ensures_call_of ensures_cover fun s' hs' ↦ (ensures_consult he).weaken ?_
  rintro answer _ ⟨hreplies, rfl⟩
  exact ⟨hs'.clauses_eq ▸ hreplies, hs'⟩

/-- If a call is turned away, the engine is one that turns calls away. -/
theorem ensures_refused :
    refused.Ensures e s (fun b s' ↦ s' = s ∧ (b = true → ¬∀ n, e.refuses n = false)) E := fun j ↦
  ⟨⟨rfl, fun hb he ↦ Bool.noConfusion (hb.symm.trans (he (j.solves + 1)))⟩, rfl⟩

/-- What is replied to a call: "unknown" if it is turned away, and the answer of the engine if it is
not. -/
def reply (ls : List Literal) : Act Solver Answer := do
  if ← refused then return .unknown else call ls

/-- A call that is turned away leaves the solver as it was. -/
theorem ensures_reply_of {ls : List Literal} {Q : Answer → Solver → Prop}
    (hrefused : (¬∀ n, e.refuses n = false) → Q .unknown s) (hcall : (call ls).Ensures e s Q E) :
    (reply ls).Ensures e s Q E := by
  refine ensures_refused.bind ?_
  rintro b _ ⟨rfl, hb⟩
  cases b with
  | true => exact ensures_pure.2 (hrefused (hb rfl))
  | false => exact hcall

/-- **A solver replies truly**, and is unchanged but for what it learned of variables. That there is
no answer is a reply as well. -/
theorem ensures_reply (he : e.Sound) {ls : List Literal} : (reply ls).Ensures e s
    (fun answer s' ↦ Replies e s.clauses ls answer ∧ s.Asked s') E :=
  ensures_reply_of (fun hrefused ↦ ⟨⟨⟨0, trivial⟩, fun _ hd ↦ hrefused hd.1⟩, .refl s⟩)
    (ensures_call he)

/-- A reply is noted, whatever it is. -/
theorem solve_eq (ls : List Literal) : solve ls = reply ls >>= fun answer ↦ do
    note (.solved · ls answer.verdict)
    return answer := by
  rw [solve, reply, bind_assoc]
  congr
  funext b
  cases b <;> rfl

/-- A reply that is ensured is what a solver ends with, and a missing one is counted. -/
theorem exists_run_solve {ls : List Literal} {Q : Answer → Solver → Prop}
    (h : (reply ls).Ensures e s Q fun _ ↦ False) (j : Journal) :
    ∃ answer s' j', (solve ls).run e s j = ⟨.ok answer, s', j'⟩ ∧ Q answer s' ∧
      j'.unanswered = j.unanswered + if answer = .unknown then 1 else 0 := by
  have hreply := h j
  rcases hrun : (reply ls).run e s j with ⟨fault | answer, s', j'⟩ <;> rw [hrun] at hreply
  · exact hreply.2.2.1.elim
  · obtain ⟨hQ, hcount⟩ := hreply
    refine ⟨answer, s', j'.note (.solved s'.name ls answer.verdict), ?_, hQ, ?_⟩
    · rw [solve_eq, run_bind, hrun]
      rfl
    · rw [Journal.unanswered_note, hcount]
      cases answer <;> rfl

end Solver

/-! ### Sessions -/

namespace Session

variable {s s' : Session} {k n m : Nat} {D : List Clause} {ls : List Literal}
  {P Q : (Variable → Bool) → Prop} {E : Session → Prop}

/-- The session after it was told some clauses, with `m` variables known. -/
def told (s : Session) (m : Nat) (D : List Clause) : Session :=
  { s with solver := { s.solver with known := m, clauses := D.reverse ++ s.solver.clauses } }

/-- Being told twice is being told once. -/
theorem told_told (s : Session) (m : Nat) (D D' : List Clause) :
    (s.told m D).told n D' = s.told n (D ++ D') := by
  simp [told]

/-- A clause that is added is told. -/
theorem ensures_add {c : Clause} : (add c).Ensures e s
    (fun _ s' ↦ s' = s.told (max s.solver.known (span c)) [c]) E :=
  ensures_on.2 ((Solver.ensures_modify_note rfl).weaken fun _ _ h ↦ by rw [h]; rfl)

/-- Variables are reserved without a clause. -/
theorem ensures_reserve : (reserve n).Ensures e s
    (fun _ s' ↦ s' = s.told (max s.solver.known n) []) E :=
  ensures_on.2 ((Solver.ensures_modify_note rfl).weaken fun _ _ h ↦ by rw [h]; rfl)

/-- A fresh variable is the first one that is not known. -/
theorem ensures_fresh : fresh.Ensures e s
    (fun x s' ↦ x = s.solver.known ∧ s' = s.told (x + 1) []) E := by
  have hmax : max s.solver.known (s.solver.known + 1) = s.solver.known + 1 := by omega
  rw [fresh, ensures_get_bind]
  refine ensures_reserve.bind ?_
  rintro - _ rfl
  exact ensures_pure.2 ⟨rfl, by rw [hmax]⟩

/-- **A directive** tells its clauses. -/
theorem ensures_direct {d : Directive} : (direct d).Ensures e s
    (fun _ s' ↦ s' = s.told (d.known s.solver.known) (Directive.clauses [d])) E := by
  cases d with
  | clause c => exact ensures_add
  | reserve n => exact ensures_reserve

/-- A session counts the known variables as an encoder does. -/
theorem ensures_directs {ds : List Directive} : (ds.forM direct).Ensures e s
    (fun _ s' ↦ s' = s.told (ds.foldl Directive.known s.solver.known) (Directive.clauses ds))
    E := by
  induction ds generalizing s with
  | nil => exact ensures_pure.2 rfl
  | cons d ds ih =>
    show (direct d >>= fun _ ↦ ds.forM direct).Ensures e s _ E
    refine ensures_direct.bind ?_
    rintro - _ rfl
    refine ih.weaken ?_
    rintro - _ rfl
    cases d <;> simp [told, Directive.clauses, Directive.known]

/-- What an encoder asks for is carried out. -/
theorem ensures_perform {x : Encoder α} {a : α} (hx : x.Gives s.solver.known a m D) :
    (perform x).Ensures e s (fun b s' ↦ b = a ∧ s' = s.told m D) E := by
  rw [perform, ensures_get_bind]
  refine ensures_directs.bind ?_
  rintro - _ rfl
  have hresult : (x.emission s.solver.known).result = .ok a := hx.result
  have hknown : (x.emission s.solver.known).directives.foldl Directive.known s.solver.known = m :=
    hx.counted
  have hclauses : Directive.clauses (x.emission s.solver.known).directives = D := hx.clauses
  exact ensures_ofExcept hresult ⟨rfl, by rw [hknown, hclauses]⟩

/-- Clauses that are given to a session hold beside those that it has, whatever they are. -/
theorem ensures_perform_clauses {cs : List Clause} : (perform (Encoder.clauses cs)).Ensures e s
    (fun _ s' ↦ ∀ v, AllHold s'.solver.clauses v ↔ AllHold cs v ∧ AllHold s.solver.clauses v)
    E := by
  obtain ⟨m, hm⟩ := Emit.exists_gives_clauses cs s.solver.known
  refine (ensures_perform (Encoder.gives_lift hm)).weaken ?_
  rintro _ _ ⟨-, rfl⟩ v
  rw [told, allHold_append, allHold_reverse]

/-- A session that was asked: the solver was, and the assumptions are used up. -/
structure Asked (s s' : Session) : Prop where
  solver : s.solver.Asked s'.solver
  pending : s'.pending = []

/-- A check asks the solver under the assumptions that wait, and uses them up. -/
theorem exists_run_check {Q : Answer → Solver → Prop}
    (h : (Solver.reply s.pending).Ensures e s.solver Q fun _ ↦ False) (j : Journal) :
    ∃ answer r i, check.run e s j = ⟨.ok answer, { s with pending := [], solver := r }, i⟩ ∧
      Q answer r ∧ i.unanswered = j.unanswered + if answer = .unknown then 1 else 0 := by
  obtain ⟨answer, r, i, hrun, hQ⟩ := Solver.exists_run_solve h j
  refine ⟨answer, r, i, ?_, hQ⟩
  show ((Solver.solve s.pending).run e s.solver j).mapState
    (fun r ↦ { s with pending := [], solver := r }) = _
  rw [hrun]
  rfl

/-- **Going on from an answer.** If there is none the engine gave up, and the action ends there. -/
theorem ensures_check_bind (he : e.Sound) {f : Answer → Except Fault α} {Q : α → Session → Prop}
    (hunknown : f .unknown = .error .unknownAnswer)
    (h : ∀ answer s', answer ≠ .unknown → Solver.Replies e s.solver.clauses s.pending answer →
      s.Asked s' → ∃ a, f answer = .ok a ∧ Q a s') :
    (check >>= fun answer ↦ ofExcept (f answer)).Ensures e s Q s.Asked := by
  intro j
  obtain ⟨answer, r, i, hcheck, ⟨hreplies, hasked⟩, hcount⟩ :=
    exists_run_check (s := s) (Solver.ensures_reply he) j
  have hs : s.Asked { s with pending := [], solver := r } := ⟨hasked, rfl⟩
  rw [run_bind, hcheck]
  show Outcome.Meets e j ⟨f answer, _, i⟩ Q s.Asked
  by_cases hanswer : answer = .unknown
  · rw [if_pos hanswer] at hcount
    rw [hanswer, hunknown]
    exact ⟨rfl, hreplies.2 hanswer, hs, hcount ▸ Nat.lt_succ_self _⟩
  · obtain ⟨a, ha, hQ⟩ := h answer _ hanswer hreplies hs
    rw [if_neg hanswer] at hcount
    rw [ha]
    exact ⟨hQ, hcount⟩

/-- Whether the clauses and the waiting assumptions are satisfiable together. -/
theorem ensures_satisfiable (he : e.Sound) : satisfiable.Ensures e s
    (fun b s' ↦ (b ↔ Solvable s.solver.clauses s.pending) ∧ s.Asked s') s.Asked := by
  refine ensures_check_bind he rfl ?_
  rintro (m | - | -) s' hanswer ⟨⟨n, hsound⟩, -⟩ hs'
  · exact ⟨true, rfl, iff_of_true rfl ⟨_, hsound.solvedBy⟩, hs'⟩
  · exact ⟨false, rfl, iff_of_false Bool.false_ne_true hsound, hs'⟩
  · exact absurd rfl hanswer

/-- A solution, seen on some variables, or nothing if there is none. -/
theorem ensures_witness (he : e.Sound) {xs : List Variable} : (witness xs).Ensures e s
    (fun ys? s' ↦ (match ys? with
      | none => ¬Solvable s.solver.clauses s.pending
      | some ys => ∃ v, AllHold s.solver.clauses v ∧ (∀ l ∈ s.pending, l.holds v) ∧
        ys = xs.filter v) ∧ s.Asked s') s.Asked := by
  have hmodel : (check >>= fun answer ↦ ofExcept answer.model?).Ensures e s
      (fun m? s' ↦ (match m? with
        | none => ¬Solvable s.solver.clauses s.pending
        | some m => Problem.SolvedBy ⟨0, s.solver.clauses, s.pending⟩ m.valuation) ∧ s.Asked s')
      s.Asked := by
    refine ensures_check_bind he rfl ?_
    rintro (m | - | -) s' hanswer ⟨⟨n, hsound⟩, -⟩ hs'
    · exact ⟨some m, rfl, hsound.solvedBy, hs'⟩
    · exact ⟨none, rfl, hsound, hs'⟩
    · exact absurd rfl hanswer
  rw [witness, ← bind_assoc]
  refine hmodel.bind ?_
  rintro (_ | m) s' ⟨hm, hs'⟩
  · exact ensures_pure.2 ⟨hm, hs'⟩
  · exact ensures_pure.2 ⟨⟨_, hm.1, hm.2, m.trueAmong_eq xs⟩, hs'⟩

theorem ensures_release : release.Ensures e s (fun _ _ ↦ True) E := by
  refine Ensures.bind (Q := fun _ _ ↦ True) ?_ fun _ _ _ ↦ ensures_log.2 trivial
  exact ensures_on.2 ((Solver.ensures_note rfl).weaken fun _ _ _ ↦ trivial)

/-- Sessions are released without a fault. -/
theorem isQuiet_release : release.IsQuiet e := fun _ ↦ ensures_release

/-! ### Known variables

The clauses of a session are over variables that it knows. It is opened without clauses, and what
it is told or asked keeps this.
-/

/-- All clauses are over known variables. -/
def Covered (s : Session) : Prop := ∀ c ∈ s.solver.clauses, span c ≤ s.solver.known

/-- Questions leave the clauses within the variables that are known. -/
theorem Covered.asked (h : s.Covered) (h' : s.Asked s') : s'.Covered := by
  rw [Covered, h'.solver.clauses_eq]
  exact fun c hc ↦ (h c hc).trans h'.solver.known_le

/-- And so do clauses over known variables. -/
theorem Covered.told (h : s.Covered) (hn : s.solver.known ≤ m) (hD : ∀ c ∈ D, span c ≤ m) :
    (s.told m D).Covered := by
  intro c hc
  rcases List.mem_append.1 hc with hc | hc
  · exact hD c (List.mem_reverse.1 hc)
  · exact (h c hc).trans hn

/-! ### Meanings -/

/-- The session is ready for a question, and its clauses say exactly `P` of the first `k` variables.
-/
structure Means (s : Session) (k : Nat) (P : (Variable → Bool) → Prop) : Prop where
  le_known : k ≤ s.solver.known
  span_le : ∀ c ∈ s.solver.clauses, span c ≤ s.solver.known
  pending : s.pending = []
  mean : Mean k s.solver.clauses P

/-- The meaning counts, not how it is put. -/
theorem Means.congr (h : s.Means k P) (hPQ : ∀ v, P v ↔ Q v) : s.Means k Q :=
  { h with mean := h.mean.congr hPQ }

/-- **Questions change no meanings.** -/
theorem Means.asked (h : s.Means k P) (h' : s.Asked s') : s'.Means k P where
  le_known := h.le_known.trans h'.solver.known_le
  span_le := Covered.asked h.span_le h'
  pending := h'.pending
  mean := h'.solver.clauses_eq ▸ h.mean

/-- **Clauses add their meaning.** -/
theorem Means.told (h : s.Means k P) (hn : s.solver.known ≤ m) (hD : ∀ c ∈ D, span c ≤ m)
    (hmean : Mean s.solver.known D Q) (hQ : LocalBelow k Q) :
    (s.told m D).Means k fun v ↦ P v ∧ Q v where
  le_known := h.le_known.trans hn
  span_le := Covered.told h.span_le hn hD
  pending := h.pending
  mean := (h.mean.append h.span_le hmean h.le_known hQ).of_allHold_iff fun v ↦ by
    rw [Session.told, allHold_append, allHold_append, allHold_reverse, and_comm]

/-- **Performing an encoder** adds what it imposes. -/
theorem Means.perform {x : Encoder α} {a : α} (h : s.Means k P) (hx : x.Imposes k a Q) :
    (perform x).Ensures e s (fun b s' ↦ b = a ∧ s'.Means k fun v ↦ P v ∧ Q v) E := by
  obtain ⟨m, D, hD, hmean⟩ := hx.gives _ h.le_known
  refine (ensures_perform hD).weaken ?_
  rintro b s' ⟨rfl, rfl⟩
  exact ⟨rfl, h.told hD.le hD.span_le hmean hx.localBelow⟩

/-- A clause over the atoms adds itself. -/
theorem Means.add {c : Clause} (h : s.Means k P) (hc : span c ≤ k) : (add c).Ensures e s
    (fun _ s' ↦ s'.Means k fun v ↦ P v ∧ Clause.holds v c) E := by
  refine ensures_add.weaken ?_
  rintro - _ rfl
  refine h.told (le_max_left _ _) ?_ ?_ (localBelow_holds hc)
  · exact fun d hd ↦ List.mem_singleton.1 hd ▸ le_max_right _ _
  · exact (mean_self _ [c]).congr fun v ↦ allHold_singleton

/-- A fresh variable that is to be true and false leaves no model. -/
theorem Means.ensures_contradict (h : s.Means k P) :
    Ensures e (do
      let x ← fresh
      Session.add [x.pos]
      Session.add [x.neg]) s (fun _ s' ↦ s'.Means k fun _ ↦ False) E := by
  refine ensures_fresh.bind ?_
  rintro x _ ⟨hx, rfl⟩
  refine ensures_add.bind ?_
  rintro - _ rfl
  refine ensures_add.weaken ?_
  rintro - _ rfl
  have hspan : ∀ c ∈ [[x.pos], [x.neg]], span c = x + 1 := by simp [span]
  -- the clauses are over more than the first `k` variables, and say nothing that is true
  have hmean : Mean s.solver.known [[x.pos], [x.neg]] fun _ ↦ False := by
    refine ⟨fun v hv ↦ ?_, fun _ ↦ False.elim⟩
    rw [allHold_cons, allHold_singleton, holds_singleton, holds_singleton, Literal.holds,
      Literal.holds, beq_iff_eq, beq_iff_eq] at hv
    exact Bool.noConfusion (hv.1.symm.trans hv.2)
  rw [told_told, told_told]
  refine (h.told ?_ (fun c hc ↦ ?_) hmean (localBelow_const k False)).congr
    fun _ ↦ and_iff_right_of_imp False.elim
  · exact hx ▸ (Nat.le_succ _).trans ((le_max_left _ _).trans (le_max_left _ _))
  · exact (hspan c hc).le.trans ((le_max_left _ _).trans (le_max_left _ _))

/-- A formula over known variables is named, and the name has its value from then on. -/
theorem Means.ensures_named {φ : Formula Literal} (h : s.Means k P)
    (hφ : ∀ l ∈ φ.occurrences, l.var < k) :
    (Session.perform (φ.named .both : Encoder Literal)).Ensures e s
      (fun l s' ↦ s'.Means k P ∧ (∀ v, AllHold s'.solver.clauses v →
        AllHold s.solver.clauses v ∧ l.holds v = φ.eval (Literal.holds v))) E := by
  obtain ⟨l, m, D, hD, hname⟩ :=
    φ.naming .both fun l hl ↦ Nat.lt_of_lt_of_le (hφ l hl) h.le_known
  refine (ensures_perform (Encoder.gives_lift hD)).weaken ?_
  rintro _ _ ⟨rfl, rfl⟩
  refine ⟨(h.told hD.le hD.span_le hname.mean (localBelow_const k True)).congr
    fun v ↦ and_iff_left trivial, fun v hv ↦ ?_⟩
  obtain ⟨hvD, hvs⟩ := allHold_append.1 hv
  exact ⟨hvs, Polarity.ties_both.1 (hname.sound v (allHold_reverse.1 hvD))⟩

/-- Some formulas are named, and the names have their values. -/
theorem Means.ensures_names {x : Encoder (List Literal)} {φs : List (Formula Literal)}
    (h : s.Means k P) (hx : x.Names k φs) : (Session.perform x).Ensures e s
      (fun ls s' ↦ s'.Means k P ∧ ∀ v, AllHold s'.solver.clauses v →
        ls.map (Literal.holds v) = φs.map (Formula.eval (Literal.holds v))) E := by
  obtain ⟨ls, m, D, hD, hmean, hls⟩ := hx _ h.le_known
  refine (ensures_perform hD).weaken ?_
  rintro _ _ ⟨rfl, rfl⟩
  refine ⟨(h.told hD.le hD.span_le hmean (localBelow_const k True)).congr
    fun v ↦ and_iff_left trivial, fun v hv ↦ ?_⟩
  exact hls v (allHold_reverse.1 (allHold_append.1 hv).1)

/-- Questions about the first `k` variables are answered by the meaning. -/
theorem Means.exists_iff (h : s.Means k P) (hQ : LocalBelow k Q) :
    (∃ v, AllHold s.solver.clauses v ∧ Q v) ↔ ∃ v, P v ∧ Q v :=
  h.mean.exists_iff hQ

/-- A session is solvable iff what it means can hold. -/
theorem Means.solvable_iff (h : s.Means k P) : Solvable s.solver.clauses s.pending ↔ ∃ v, P v := by
  simpa [Solvable, h.pending] using h.exists_iff (localBelow_const k True)

/-- A new session means nothing yet. -/
theorem ensures_acquire {t : Unit} {E : Unit → Prop} : (acquire n).Ensures e t
    (fun s _ ↦ s.Means n fun _ ↦ True) E := by
  have hsolver : (Act.handOver Solver.acquire Solver.release (Solver.reserve n)).Ensures e t
      (fun p _ ↦ Session.Means ⟨p.2, []⟩ n fun _ ↦ True) E := by
    refine ensures_handOver (A := fun r ↦ r.clauses = []) (fun _ ↦ ?_) (fun j ↦ ?_) fun r hr ↦ ?_
    · exact (Solver.ensures_note rfl).weaken fun _ _ _ ↦ trivial
    · exact ⟨rfl, j.unanswered_note _⟩
    · refine (Solver.ensures_modify_note rfl).weaken ?_
      rintro - _ rfl
      refine ⟨le_max_right _ _, fun c hc ↦ ?_, rfl, ?_⟩
      · exact absurd (hr ▸ hc) List.not_mem_nil
      · exact hr ▸ mean_nil n
  exact hsolver.bind fun _ _ h ↦ ensures_pure.2 h

/-- A session of its own starts without clauses. -/
theorem ensures_during {t : σ} {x : Act Session α} {Q : α → σ → Prop} {E : σ → Prop}
    (h : ∀ s : Session, s.Means n (fun _ ↦ True) → x.Ensures e s (fun a _ ↦ Q a t) fun _ ↦ E t) :
    (during n x).Ensures e t Q E :=
  ensures_bracket isQuiet_release ensures_acquire h

end Session

end Dialectical
