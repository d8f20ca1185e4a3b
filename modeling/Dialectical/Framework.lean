import Dialectical.Formula.Substitution
import Dialectical.Interpretation
import Dialectical.Label

/-!
# Abstract dialectical frameworks

A framework gives each of its arguments an acceptance condition over the arguments. The graph of a
framework is read off its conditions: `r` is a parent of `s`, and `(r, s)` is a link, if `r` occurs
in the condition of `s`. Nothing about the graph is stored, so its views cannot disagree with the
conditions.

## Main definitions

* `Framework`: labels, one condition per label, and no condition that leaves the framework.
* `Framework.parents`, `Framework.children`, `Framework.links`: the graph.
* `Framework.reduct`: the framework in which the arguments an interpretation rejects are gone.
-/

namespace Dialectical

/-- A link, from a parent to the child whose condition it occurs in. -/
structure Link where
  parent : Nat
  child : Nat
  deriving DecidableEq, Repr

/-- An abstract dialectical framework. The arguments are the positions of their labels. -/
structure Framework where
  /-- The labels of the arguments. -/
  labels : LabelSet
  /-- The acceptance conditions, in order of identifiers. -/
  conditions : List Condition
  /-- Every argument has one condition. -/
  length_conditions : conditions.length = labels.size
  /-- Conditions speak of arguments of the framework only. -/
  lt_size_of_mem : ∀ c ∈ conditions, ∀ a ∈ c.occurrences, a < labels.size

namespace Framework

/-! ### Arguments and conditions -/

/-- The number of arguments. -/
def size (F : Framework) : Nat := F.labels.size

/-- The arguments in increasing order. -/
def arguments (F : Framework) : List Nat := List.range F.size

/-- It is a fault to speak of an argument out of range. -/
def require (F : Framework) (a : Nat) : Except Fault Unit :=
  if a < F.size then .ok () else .error (.outOfBounds F.size a)

/-- The condition of an argument. Outside the framework nothing is acceptable. -/
def condition (F : Framework) (a : Nat) : Condition := (F.conditions[a]?).getD .bot

/-- The condition of an argument given by its label. -/
def conditionOf (F : Framework) (label : String) : Except Refusal Condition :=
  F.condition <$> F.labels.find label

/-- The text of the condition of an argument, with labels for the arguments in it. -/
def conditionText (F : Framework) (a : Nat) : String :=
  (F.condition a).render fun b ↦ (F.labels.toList[b]?).getD ""

/-- The labels of some arguments. -/
def labelsOf (F : Framework) (as : List Nat) : Except Fault (List String) :=
  as.mapM F.labels.label

/-! ### The graph -/

/-- The arguments in the condition of an argument, in order of first occurrence. -/
def parents (F : Framework) (a : Nat) : List Nat := (F.condition a).leaves

/-- The arguments in whose conditions an argument occurs, in increasing order. -/
def children (F : Framework) (a : Nat) : List Nat :=
  F.arguments.filter fun c ↦ a ∈ F.parents c

/-- The links, by increasing child and then in the order of the parents. -/
def links (F : Framework) : List Link :=
  F.arguments.flatMap fun c ↦ (F.parents c).map (⟨·, c⟩)

/-! ### Reducts -/

/-- The condition an argument keeps when the arguments in `off` are rejected. -/
def reductCondition (off : Nat → Bool) (a : Nat) (c : Condition) : Condition :=
  if off a then .bot else c.substitute fun b ↦ if off b then some false else none

theorem occurrences_reductCondition {off : Nat → Bool} {a b : Nat} {c : Condition}
    (h : b ∈ (reductCondition off a c).occurrences) : b ∈ c.occurrences := by
  unfold reductCondition at h
  split at h
  · simp [Formula.occurrences] at h
  · exact (Formula.occurrences_substitute h).1

/-- The framework that remains when the arguments in `off` are rejected: their conditions become
the contradiction, and so do their occurrences in the other conditions, which are simplified. -/
def reject (F : Framework) (off : Nat → Bool) : Framework where
  labels := F.labels
  conditions := F.conditions.mapIdx (reductCondition off)
  length_conditions := by rw [List.length_mapIdx, F.length_conditions]
  lt_size_of_mem c hc a ha := by
    obtain ⟨i, hi, rfl⟩ := List.mem_mapIdx.1 hc
    exact F.lt_size_of_mem _ (List.getElem_mem hi) a (occurrences_reductCondition ha)

/-- The reduct of a framework by an interpretation of its arguments: the unsatisfied ones are
rejected. -/
def reduct (F : Framework) (I : Interpretation) : Except Fault Framework :=
  if I.size = F.size then .ok (F.reject I.isUnsatisfied) else .error .sizesDiffer

/-! ### What the graph says -/

theorem mem_arguments {F : Framework} {a : Nat} : a ∈ F.arguments ↔ a < F.size :=
  List.mem_range

theorem mem_parents {F : Framework} {a b : Nat} :
    b ∈ F.parents a ↔ b ∈ (F.condition a).occurrences :=
  Formula.mem_leaves

theorem mem_children {F : Framework} {a c : Nat} :
    c ∈ F.children a ↔ c < F.size ∧ a ∈ F.parents c := by
  simp [children, mem_arguments]

theorem mem_links {F : Framework} {l : Link} :
    l ∈ F.links ↔ l.child < F.size ∧ l.parent ∈ F.parents l.child := by
  obtain ⟨r, s⟩ := l
  simp only [links, List.mem_flatMap, List.mem_map, mem_arguments, Link.mk.injEq]
  constructor
  · rintro ⟨c, hc, p, hp, rfl, rfl⟩
    exact ⟨hc, hp⟩
  · rintro ⟨hs, hr⟩
    exact ⟨s, hs, r, hr, rfl, rfl⟩

end Framework

end Dialectical
