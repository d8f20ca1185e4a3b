import Dialectical.Encoding
import Dialectical.Formula

/-!
# Names for formulas

A formula over literals is written as clauses by giving each of its constants and connectives a
fresh variable, its name, and clauses that tie the name to the names of the parts. The polarity says
how tight: `positive` makes the name imply the formula, `negative` makes the formula imply the name
and `both` does both. Leaves are their own names and negation only changes the sign, so neither
needs a variable.

Parts are named before the whole, from left to right.
-/

namespace Dialectical

/-- Which implications tie a name to its formula. -/
inductive Polarity where
  /-- The name implies the formula. -/
  | positive
  /-- The formula implies the name. -/
  | negative
  /-- The name and the formula are equivalent. -/
  | both
  deriving DecidableEq, Repr

namespace Polarity

/-- The polarity of what stands under a negation. -/
def flip : Polarity → Polarity
  | positive => negative
  | negative => positive
  | both => both

/-- Whether the name is to imply the formula. -/
def hasPositive (p : Polarity) : Bool := p ≠ negative

/-- Whether the formula is to imply the name. -/
def hasNegative (p : Polarity) : Bool := p ≠ positive

/-- The polarity of the left operand of a connective. -/
def left : Connective → Polarity → Polarity
  | .and, p => p
  | .or, p => p
  | .imp, p => p.flip
  | .iff, _ => both
  | .xor, _ => both

/-- The polarity of the right operand of a connective. -/
def right : Connective → Polarity → Polarity
  | .and, p => p
  | .or, p => p
  | .imp, p => p
  | .iff, _ => both
  | .xor, _ => both

end Polarity

namespace Connective

/-- The clauses by which the name `n` implies the connective applied to `a` and `b`. -/
def implied (op : Connective) (n a b : Literal) : List Clause :=
  match op with
  | and => [[n.negate, a], [n.negate, b]]
  | or => [[n.negate, a, b]]
  | imp => [[n.negate, a.negate, b]]
  | iff => [[n.negate, a.negate, b], [n.negate, a, b.negate]]
  | xor => [[n.negate, a, b], [n.negate, a.negate, b.negate]]

/-- The clauses by which the connective applied to `a` and `b` implies the name `n`. -/
def implying (op : Connective) (n a b : Literal) : List Clause :=
  match op with
  | and => [[n, a.negate, b.negate]]
  | or => [[n, a.negate], [n, b.negate]]
  | imp => [[n, a], [n, b.negate]]
  | iff => [[n, a, b], [n, a.negate, b.negate]]
  | xor => [[n, a.negate, b], [n, a, b.negate]]

/-- The clauses that tie the name `n` to the connective applied to `a` and `b`. -/
def gate (op : Connective) (p : Polarity) (n a b : Literal) : List Clause :=
  (if p.hasPositive then op.implied n a b else []) ++
    if p.hasNegative then op.implying n a b else []

/-- The clauses of the first kind hold if and only if the name implies the connective. -/
theorem holds_implied (op : Connective) (n a b : Literal) (v : Variable → Bool) :
    (op.implied n a b).all (Clause.holds v) =
      (!n.holds v || op.apply (a.holds v) (b.holds v)) := by
  cases op <;> simp only [implied, apply, List.all_cons, List.all_nil, Clause.holds, List.any_cons,
    List.any_nil, Literal.holds_negate] <;>
    cases n.holds v <;> cases a.holds v <;> cases b.holds v <;> rfl

/-- The clauses of the second kind hold if and only if the connective implies the name. -/
theorem holds_implying (op : Connective) (n a b : Literal) (v : Variable → Bool) :
    (op.implying n a b).all (Clause.holds v) =
      (n.holds v || !op.apply (a.holds v) (b.holds v)) := by
  cases op <;> simp only [implying, apply, List.all_cons, List.all_nil, Clause.holds, List.any_cons,
    List.any_nil, Literal.holds_negate] <;>
    cases n.holds v <;> cases a.holds v <;> cases b.holds v <;> rfl

end Connective

/-- Names a formula over literals: asks for the clauses that tie its parts to their names, and
returns the name of the whole. -/
def Formula.named (p : Polarity) : Formula Literal → Emit Literal
  | top => do
    let n ← Emit.fresh
    Emit.clause [n.pos]
    return n.pos
  | bot => do
    let n ← Emit.fresh
    Emit.clause [n.neg]
    return n.pos
  | leaf l => return l
  | neg φ => Literal.negate <$> φ.named p.flip
  | binary op φ ψ => do
    let a ← φ.named (p.left op)
    let b ← ψ.named (p.right op)
    let n ← Emit.fresh
    Emit.clauses (op.gate p n.pos a b)
    return n.pos

end Dialectical
