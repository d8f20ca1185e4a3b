import Dialectical.Error

/-!
# Literals, clauses and assignments

Variables are counted from zero inside the library. Where variables and literals are read or
written as numbers they are counted from one and the sign is the polarity, so that zero names
nothing; `Literal.ofNumber` and `Literal.number` convert.

A valuation is total and is what the meaning of clauses is defined by. An `Assignment` is what a
solver answers: it may leave variables open, and it satisfies a clause only by a literal that it
makes true.
-/

namespace Dialectical

/-- A propositional variable, counted from zero. -/
abbrev Variable := Nat

/-- The variable with a number, counted from one. -/
def Variable.ofNumber : Nat → Except Fault Variable
  | 0 => .error .zeroVariable
  | n + 1 => .ok n

/-- A variable or its negation. -/
structure Literal where
  /-- The variable. -/
  var : Variable
  /-- Whether the literal is the variable itself. -/
  positive : Bool
  deriving DecidableEq, Repr

/-- The positive literal of a variable. -/
abbrev Variable.pos (v : Variable) : Literal := ⟨v, true⟩

/-- The negative literal of a variable. -/
abbrev Variable.neg (v : Variable) : Literal := ⟨v, false⟩

namespace Literal

/-- The opposite literal. -/
def negate (l : Literal) : Literal := ⟨l.var, !l.positive⟩

/-- The number of a literal: that of its variable, with a minus sign if it is negative. -/
def number (l : Literal) : Int := if l.positive then l.var + 1 else -(l.var + 1)

/-- The literal with a number. -/
def ofNumber (n : Int) : Except Fault Literal :=
  match n with
  | .ofNat 0 => .error .zeroLiteral
  | .ofNat (v + 1) => .ok ⟨v, true⟩
  | .negSucc v => .ok ⟨v, false⟩

/-- Whether a literal is true under a valuation. -/
def holds (v : Variable → Bool) (l : Literal) : Bool := v l.var == l.positive

theorem holds_negate (v : Variable → Bool) (l : Literal) : l.negate.holds v = !l.holds v := by
  unfold holds negate
  cases v l.var <;> cases l.positive <;> rfl

theorem negate_negate (l : Literal) : l.negate.negate = l := by
  simp [negate]

theorem ofNumber_number (l : Literal) : ofNumber l.number = .ok l := by
  obtain ⟨v, b⟩ := l
  cases b
  · rw [number, if_neg Bool.false_ne_true, show -((v : Int) + 1) = Int.negSucc v by omega, ofNumber]
  · rw [number, if_pos rfl, show ((v : Int) + 1) = Int.ofNat (v + 1) from rfl, ofNumber]

end Literal

/-- A disjunction of literals. -/
abbrev Clause := List Literal

namespace Clause

/-- Whether a clause is true under a valuation. -/
def holds (v : Variable → Bool) (c : Clause) : Bool := c.any (Literal.holds v)

/-- The least number of variables, counted from the first, that covers the literals. -/
def span (c : List Literal) : Nat := c.foldl (fun n l ↦ max n (l.var + 1)) 0

end Clause

/-- The values a solver found, in order of variables. Variables beyond its length, and variables
without a value in it, are open. -/
structure Assignment where
  /-- The values in order of variables. -/
  values : List (Option Bool)
  deriving DecidableEq, Repr

namespace Assignment

/-- The value of a variable, if it has one. -/
def value (m : Assignment) (v : Variable) : Option Bool := m.values[v]?.join

/-- The number of variables, with those that are left open inside the assignment. -/
def size (m : Assignment) : Nat := m.values.length

/-- Whether an assignment makes a literal true. -/
def makes (m : Assignment) (l : Literal) : Bool := m.value l.var = some l.positive

/-- The variables of a list that an assignment makes true. -/
def trueAmong (m : Assignment) (vs : List Variable) : List Variable :=
  vs.filter fun v ↦ m.value v = some true

end Assignment

end Dialectical
