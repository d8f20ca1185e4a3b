import Dialectical.Sat.Propagation

/-!
# Search by splitting

Decides satisfiability by propagation and case distinction: a literal of the open clauses is tried,
and then its opposite. Every choice makes the open clauses smaller, so the search ends. When no
clause is open the true literals satisfy everything, whatever the other variables are.

Which literal is tried does not matter for the answer, and matters much for the time. The search
takes the variable that occurs most often in the shortest clauses, since these are closest to
implying something.
-/

namespace Dialectical.Sat

/-! ### What to split on -/

/-- The shortest ones of some clauses. -/
def shortest (cs : List Clause) : List Clause :=
  let n := cs.foldl (fun n c ↦ min n c.length) (weight cs)
  cs.filter (·.length == n)

/-- How often each of `n` variables occurs in some literals. -/
def tally (n : Nat) (ls : List Literal) : Array Nat :=
  ls.foldl (fun counts l ↦ counts.modify l.var (· + 1)) (Array.replicate n 0)

/-- Of a literal and some more literals, the first one whose variable has the highest count. -/
def busiest (counts : Array Nat) (best : Literal) : List Literal → Literal
  | [] => best
  | l :: ls =>
    busiest counts (if counts.getD best.var 0 < counts.getD l.var 0 then l else best) ls

/-- A literal of the shortest open clauses, the variable of which occurs most often in them. There
is none if there are no clauses, or if one of them is empty. -/
def splitOn (cs : List Clause) : Option Literal :=
  match (shortest cs).flatten with
  | [] => none
  | l :: ls => some (busiest (tally (Clause.span (l :: ls)) (l :: ls)) l ls)

theorem busiest_mem (counts : Array Nat) (best : Literal) (ls : List Literal) :
    busiest counts best ls ∈ best :: ls := by
  induction ls generalizing best with
  | nil => exact List.mem_singleton_self _
  | cons l ls ih =>
    have := ih (if counts.getD best.var 0 < counts.getD l.var 0 then l else best)
    unfold busiest
    split at this <;> simp only [List.mem_cons] at * <;> grind

theorem exists_mem_of_splitOn {cs : List Clause} {l : Literal} (h : splitOn cs = some l) :
    ∃ c ∈ cs, l ∈ c := by
  unfold splitOn at h
  split at h
  · cases h
  next l' ls hls =>
    have hmem : l ∈ (shortest cs).flatten := by
      rw [hls, ← Option.some.inj h]
      exact busiest_mem _ _ _
    obtain ⟨c, hc, hl⟩ := List.mem_flatten.1 hmem
    exact ⟨c, (List.mem_filter.1 hc).1, hl⟩

/-! ### The search -/

/-- The true literals of a way to satisfy the open clauses, if there is one. -/
def split (known : List Literal) (cs : List Clause) : Option (List Literal) :=
  match _h : splitOn cs with
  | none => if cs.isEmpty then some known else none
  | some l =>
    (match _h₁ : commit l known cs with
      | none => none
      | some r => split r.1 r.2).or
    (match _h₂ : commit l.negate known cs with
      | none => none
      | some r => split r.1 r.2)
termination_by weight cs
decreasing_by
  · obtain ⟨c, hc, hl⟩ := exists_mem_of_splitOn ‹splitOn cs = some l›
    exact weight_of_commit_lt ‹commit l known cs = some r› hc (.inl hl)
  · obtain ⟨c, hc, hl⟩ := exists_mem_of_splitOn ‹splitOn cs = some l›
    exact weight_of_commit_lt ‹commit l.negate known cs = some r› hc
      (.inr (by rwa [Literal.negate_negate]))

/-- The true literals of a model of a problem, if there is one. -/
def model? (p : Problem) : Option (List Literal) := (initial p).bind fun r ↦ split r.1 r.2

end Dialectical.Sat

namespace Dialectical.Engine

/-- Answers with the first model that splitting finds. Variables that it leaves open are false. -/
def splitting : Engine where
  countsAssumed := false
  listeners := []
  refuses _ := false
  answer _ p :=
    match Sat.model? p with
    | some model =>
      .satisfiable ⟨(List.range p.known).map fun v ↦ some (model.contains ⟨v, true⟩)⟩
    | none => .unsatisfiable

end Dialectical.Engine
