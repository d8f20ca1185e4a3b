import Dialectical.Sat.Engine

/-!
# Unit propagation

What follows from a partial assignment at once: a clause of which all literals but one are false
makes the last one true. A partial assignment is the list of its true literals, kept beside the
clauses that are still open, from which satisfied clauses and false literals are gone.

## Main statements

* `weight_of_assume`, `weight_of_assume_lt`: assuming a literal makes the open clauses smaller, and
  strictly so if the literal occurs in them.
* `weight_of_propagate`: propagation never makes them larger.
-/

namespace Dialectical.Sat

/-- What remains of some clauses when a literal is true. -/
structure Remainder where
  /-- The literals that became implied. -/
  implied : List Literal
  /-- The open clauses that lost a literal. -/
  shortened : List Clause
  /-- The open clauses in which the literal and its opposite do not occur. -/
  untouched : List Clause

namespace Remainder

/-- The open clauses. The shortened ones come first, so that a search stays close to its last
choice. -/
def clauses (r : Remainder) : List Clause := r.shortened ++ r.untouched

/-- Adds what remains of one more clause. There is nothing left if the clause became empty. -/
def add (c : Clause) (touched : Bool) (r : Remainder) : Option Remainder :=
  match c with
  | [] => none
  | [l] => some { r with implied := l :: r.implied }
  | c =>
    if touched then some { r with shortened := c :: r.shortened }
    else some { r with untouched := c :: r.untouched }

end Remainder

/-- What remains of some clauses when a literal is true, if no clause becomes empty. -/
def assume (l : Literal) : List Clause → Option Remainder
  | [] => some ⟨[], [], []⟩
  | c :: cs =>
    if c.contains l then assume l cs
    else
      (assume l cs).bind <|
        if c.contains l.negate then Remainder.add (c.filter (· != l.negate)) true
        else Remainder.add c false

/-- The number of literals in some clauses. -/
def weight (cs : List Clause) : Nat := cs.flatten.length

@[simp]
theorem weight_cons (c : Clause) (cs : List Clause) : weight (c :: cs) = c.length + weight cs := by
  simp [weight]

@[simp]
theorem weight_append (cs ds : List Clause) : weight (cs ++ ds) = weight cs + weight ds := by
  simp [weight]

/-- The number of literals in what remains, implied literals included. -/
def Remainder.weight (r : Remainder) : Nat := r.implied.length + Sat.weight r.clauses

theorem Remainder.weight_of_add {c : Clause} {touched : Bool} {r r' : Remainder}
    (h : r.add c touched = some r') : r'.weight = c.length + r.weight := by
  unfold add at h
  split at h
  · cases h
  · cases h
    simp [Remainder.weight, clauses]
    omega
  · split at h <;> cases h <;> simp [Remainder.weight, clauses] <;> omega

theorem weight_of_assume {l : Literal} {cs : List Clause} {r : Remainder}
    (h : assume l cs = some r) : r.weight ≤ weight cs := by
  induction cs generalizing r with
  | nil =>
    cases h
    simp [weight, Remainder.weight, Remainder.clauses]
  | cons c cs ih =>
    unfold assume at h
    rw [weight_cons]
    split at h
    · have := ih h
      omega
    · obtain ⟨r', hr', h⟩ := Option.bind_eq_some_iff.1 h
      have := ih hr'
      split at h
      · have := Remainder.weight_of_add h
        have := List.length_filter_le (· != l.negate) c
        omega
      · have := Remainder.weight_of_add h
        omega

/-- Assuming a literal that occurs, or the opposite of one, makes the clauses strictly smaller. -/
theorem weight_of_assume_lt {l : Literal} {cs : List Clause} {r : Remainder}
    (h : assume l cs = some r) {c : Clause} (hc : c ∈ cs) (hl : l ∈ c ∨ l.negate ∈ c) :
    r.weight < weight cs := by
  induction cs generalizing r with
  | nil => cases hc
  | cons d cs ih =>
    unfold assume at h
    rw [weight_cons]
    split at h
    next hd =>
      have := weight_of_assume h
      have := List.length_pos_of_mem (List.contains_iff_mem.1 hd)
      omega
    next hd =>
      obtain ⟨r', hr', h⟩ := Option.bind_eq_some_iff.1 h
      have hle := weight_of_assume hr'
      split at h
      next hn =>
        have hadd := Remainder.weight_of_add h
        have : (d.filter (· != l.negate)).length < d.length :=
          List.length_filter_lt_length_iff_exists.2 ⟨_, List.contains_iff_mem.1 hn, by simp⟩
        omega
      next hn =>
        have hadd := Remainder.weight_of_add h
        rcases List.mem_cons.1 hc with rfl | hc
        · rcases hl with hl | hl
          · exact absurd (List.contains_iff_mem.2 hl) hd
          · exact absurd (List.contains_iff_mem.2 hl) hn
        · have := ih hr' hc
          omega

/-- Makes the literals of a queue true, one after the other, with all that they imply. The result
is the enlarged list of true literals and the clauses that are still open, or nothing if a literal
and its opposite are both implied.

Literals that are known already do not occur in the open clauses, so that of what is implied only
the queue itself has to be looked through. -/
def propagate (queue known : List Literal) (cs : List Clause) :
    Option (List Literal × List Clause) :=
  match queue with
  | [] => some (known, cs)
  | l :: queue =>
    if queue.contains l then propagate queue known cs
    else if queue.contains l.negate then none
    else
      match _h : assume l cs with
      | none => none
      | some r => propagate (queue ++ r.implied) (l :: known) r.clauses
termination_by weight cs + queue.length
decreasing_by
  · simp
  · have := weight_of_assume ‹assume l cs = some _›
    simp only [List.length_append, List.length_cons, Remainder.weight] at *
    omega

theorem weight_of_propagate {queue known : List Literal} {cs : List Clause}
    {r : List Literal × List Clause} (h : propagate queue known cs = some r) :
    weight r.2 ≤ weight cs := by
  fun_induction propagate queue known cs with
  | case1 =>
    cases h
    exact Nat.le_refl _
  | case2 known cs l queue hl ih => exact ih h
  | case3 => cases h
  | case4 => cases h
  | case5 known cs l queue hl hl' r' hassume ih =>
    have := ih h
    have := weight_of_assume hassume
    simp only [Remainder.weight] at *
    omega

/-- Makes one more literal true, with all that it implies. -/
def commit (l : Literal) (known : List Literal) (cs : List Clause) :
    Option (List Literal × List Clause) :=
  (assume l cs).bind fun r ↦ propagate r.implied (l :: known) r.clauses

theorem weight_of_commit_lt {l : Literal} {known : List Literal} {cs : List Clause}
    {r : List Literal × List Clause} (h : commit l known cs = some r) {c : Clause} (hc : c ∈ cs)
    (hl : l ∈ c ∨ l.negate ∈ c) : weight r.2 < weight cs := by
  obtain ⟨r', hr', h⟩ := Option.bind_eq_some_iff.1 h
  have := weight_of_propagate h
  have := weight_of_assume_lt hr' hc hl
  simp only [Remainder.weight] at *
  omega

/-- The true literals and the open clauses of a problem before any choice: its assumptions and unit
clauses are propagated. -/
def initial (p : Problem) : Option (List Literal × List Clause) :=
  if p.clauses.any List.isEmpty then none
  else
    let units := p.clauses.filter (·.length == 1)
    propagate (p.assumptions ++ units.flatten) [] (p.clauses.filter (·.length != 1))

/-- The least number of variables that covers a problem. -/
def span (p : Problem) : Nat :=
  p.clauses.foldl (fun n c ↦ max n (Clause.span c)) (max p.known (Clause.span p.assumptions))

end Dialectical.Sat
