import Dialectical.Proofs.Meaning
import Dialectical.Sat.Propagation

/-!
# Engines that answer truly

What is proved of searches is proved for every engine that answers truly and never gives up. There
is such an engine: it goes through all valuations of the variables of a problem, and answers with
the first one that solves it (`Engine.exhaustive_correct`).

Where an engine may give up it may do so at any calls, and still answers truly at the others
(`Engine.Sound.givingUp`).
-/

namespace Dialectical

open Clause

namespace Sat

/-- All lists of `n` truth values. -/
def valuations : Nat → List (List Bool)
  | 0 => [[]]
  | n + 1 => (valuations n).flatMap fun bs ↦ [false :: bs, true :: bs]

/-- These are all lists of that length. -/
theorem mem_valuations {n : Nat} {bs : List Bool} : bs ∈ valuations n ↔ bs.length = n := by
  induction n generalizing bs with
  | zero => simp [valuations]
  | succ n ih =>
    cases bs with
    | nil => simp [valuations]
    | cons b bs => cases b <;> simp [valuations, ih]

/-- The valuation with some values for the first variables; the others are false. -/
def valueIn (bs : List Bool) (x : Variable) : Bool := bs.getD x false

/-- Whether a valuation makes all clauses and assumptions true. -/
def solves (p : Problem) (bs : List Bool) : Bool :=
  p.clauses.all (Clause.holds (valueIn bs)) && p.assumptions.all (Literal.holds (valueIn bs))

/-- The test is the definition of a solution. -/
theorem solves_iff {p : Problem} {bs : List Bool} : solves p bs ↔ p.SolvedBy (valueIn bs) := by
  simp [solves, Problem.SolvedBy]

/-- All variables of a problem lie below its span. -/
theorem le_span (p : Problem) :
    Clause.span p.assumptions ≤ span p ∧ ∀ c ∈ p.clauses, Clause.span c ≤ span p := by
  have hfold : ∀ (cs : List Clause) (m : Nat),
      m ≤ cs.foldl (fun n c ↦ max n (Clause.span c)) m ∧
        ∀ c ∈ cs, Clause.span c ≤ cs.foldl (fun n c ↦ max n (Clause.span c)) m := by
    intro cs
    induction cs with
    | nil => simp
    | cons c cs ih =>
      intro m
      obtain ⟨hm, hcs⟩ := ih (max m (Clause.span c))
      exact ⟨(le_max_left _ _).trans hm, List.forall_mem_cons.2 ⟨(le_max_right _ _).trans hm, hcs⟩⟩
  obtain ⟨hm, hcs⟩ := hfold p.clauses (max p.known (Clause.span p.assumptions))
  exact ⟨(le_max_right _ _).trans hm, hcs⟩

/-- Only the variables of a problem matter. -/
theorem solvedBy_congr {p : Problem} {v w : Variable → Bool} (h : AgreeBelow (span p) v w)
    (hv : p.SolvedBy v) : p.SolvedBy w := by
  obtain ⟨hassumed, hclauses⟩ := le_span p
  refine ⟨localBelow_allHold hclauses h hv.1, fun l hl ↦ ?_⟩
  rw [← Literal.holds_congr h (span_le_iff.1 hassumed l hl)]
  exact hv.2 l hl

/-- The list of values of a problem's variables makes what they make true. -/
theorem makes_of_holds {bs : List Bool} {l : Literal} (hlt : l.var < bs.length)
    (h : l.holds (valueIn bs)) : Assignment.makes ⟨bs.map some⟩ l := by
  rw [Literal.holds, valueIn, List.getD_eq_getElem?_getD, List.getElem?_eq_getElem hlt,
    Option.getD_some, beq_iff_eq] at h
  rw [Assignment.makes, Assignment.value, List.getElem?_map, List.getElem?_eq_getElem hlt]
  simp [h]

end Sat

namespace Engine

/-- Answers with the first of all valuations that solves the problem. -/
def exhaustive : Engine where
  countsAssumed := false
  listeners := []
  refuses _ := false
  answer _ p :=
    match (Sat.valuations (Sat.span p)).find? (Sat.solves p) with
    | some bs => .satisfiable ⟨bs.map some⟩
    | none => .unsatisfiable

/-- **The engine answers every call, and truly.** -/
theorem exhaustive_correct : exhaustive.Correct where
  sound n p := by
    obtain ⟨hassumed, hclauses⟩ := Sat.le_span p
    show (match (Sat.valuations (Sat.span p)).find? (Sat.solves p) with
      | some bs => Answer.satisfiable ⟨bs.map some⟩
      | none => .unsatisfiable).SoundFor p
    cases hfind : (Sat.valuations (Sat.span p)).find? (Sat.solves p) with
    | some bs =>
      have hlen : bs.length = Sat.span p := Sat.mem_valuations.1 (List.mem_of_find?_eq_some hfind)
      obtain ⟨hcs, hls⟩ := Sat.solves_iff.1 (List.find?_some hfind)
      have hmakes : ∀ ls : List Literal, Clause.span ls ≤ Sat.span p → ∀ l ∈ ls,
          l.holds (Sat.valueIn bs) → Assignment.makes ⟨bs.map some⟩ l := fun ls hspan l hl ↦
        Sat.makes_of_holds (hlen ▸ span_le_iff.1 hspan l hl)
      refine ⟨fun c hc ↦ ?_, fun l hl ↦ hmakes _ hassumed l hl (hls l hl)⟩
      obtain ⟨l, hl, hv⟩ := holds_iff.1 (hcs c hc)
      exact ⟨l, hl, hmakes c (hclauses c hc) l hl hv⟩
    | none =>
      -- the values of a solution are among the valuations
      rintro ⟨v, hv⟩
      have hmem : (List.range (Sat.span p)).map v ∈ Sat.valuations (Sat.span p) :=
        Sat.mem_valuations.2 (by simp)
      refine List.find?_eq_none.1 hfind _ hmem (Sat.solves_iff.2 (Sat.solvedBy_congr ?_ hv))
      intro x hx
      simp [Sat.valueIn, hx]
  decisive := by
    refine ⟨fun _ ↦ rfl, fun n p ↦ ?_⟩
    show (match (Sat.valuations (Sat.span p)).find? (Sat.solves p) with
      | some bs => Answer.satisfiable ⟨bs.map some⟩
      | none => .unsatisfiable) ≠ .unknown
    split <;> exact Answer.noConfusion

/-- The same engine, except that it gives up at some calls. -/
def givingUp (e : Engine) (calls : Nat → Bool) : Engine :=
  { e with answer := fun n p ↦ if calls n then .unknown else e.answer n p }

/-- Giving up is no false answer. -/
theorem Sound.givingUp {e : Engine} (he : e.Sound) (calls : Nat → Bool) :
    (e.givingUp calls).Sound := by
  intro n p
  show (if calls n then Answer.unknown else e.answer n p).SoundFor p
  split
  · trivial
  · exact he n p

end Engine

end Dialectical
