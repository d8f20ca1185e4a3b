import Dialectical.Framework

/-!
# Building frameworks

Arguments are declared by their labels, conditions are set label by label and may be set again, and
`Builder.build` checks that every argument has a condition and that no condition speaks of an
argument that was never declared.
-/

namespace Dialectical

/-- A framework under construction. -/
structure Builder where
  /-- The labels declared so far. -/
  labels : LabelSet
  /-- The condition set last for each argument, if one was set. -/
  conditions : List (Option Condition)
  /-- Every declared argument has a place for its condition. -/
  length_conditions : conditions.length = labels.size

namespace Builder

/-- Declares the labels of a list, and sets no condition. -/
def ofLabels (labels : List String) : Builder where
  labels := .ofList labels
  conditions := List.replicate (LabelSet.ofList labels).size none
  length_conditions := List.length_replicate

/-- Declares one more label. A label that is declared already keeps its place and condition. -/
def declare (B : Builder) (label : String) : Builder where
  labels := B.labels.insert label
  conditions :=
    B.conditions ++ List.replicate ((B.labels.insert label).size - B.labels.size) none
  length_conditions := by
    rw [List.length_append, List.length_replicate, B.length_conditions]
    simp only [LabelSet.size, LabelSet.toList_insert]
    split <;> simp

/-- The formula that is just the argument with a label. -/
def argument (B : Builder) (label : String) : Except Refusal Condition :=
  Formula.leaf <$> B.labels.find label

/-- Sets the condition of the argument with a label; the condition set before, if any, is lost. -/
def setCondition (B : Builder) (label : String) (c : Condition) : Except Refusal Builder :=
  match B.labels.find label with
  | .error cause => .error (.settingCondition label cause)
  | .ok a =>
    .ok { B with
      conditions := B.conditions.set a (some c)
      length_conditions := by rw [List.length_set, B.length_conditions] }

/-- The condition of the argument with a label, if it is set and stays below `n`. -/
def checkCondition (n : Nat) (label : String) : Option Condition → Except Refusal Condition
  | none => .error (.noCondition label)
  | some c =>
    match c.leaves.find? (n ≤ ·) with
    | some a => .error (.undefinedArgument label a)
    | none => .ok c

/-- The conditions of the arguments with these labels, or what is wrong with the first faulty one.
-/
def checkConditions (n : Nat) : List (String × Option Condition) →
    Except Refusal { cs : List Condition // ∀ c ∈ cs, ∀ a ∈ c.occurrences, a < n }
  | [] => .ok ⟨[], by simp⟩
  | (label, c?) :: rest =>
    match h : checkCondition n label c? with
    | .error e => .error e
    | .ok c =>
      match checkConditions n rest with
      | .error e => .error e
      | .ok ⟨cs, hcs⟩ =>
        .ok ⟨c :: cs, by
          have hc : ∀ a ∈ c.occurrences, a < n := by
            intro a ha
            unfold checkCondition at h
            split at h
            · cases h
            · split at h
              · cases h
              next hfind =>
                cases h
                simpa using List.find?_eq_none.1 hfind a (Formula.mem_leaves.2 ha)
          simpa using ⟨hc, hcs⟩⟩

theorem length_of_checkConditions {n : Nat} {entries : List (String × Option Condition)}
    {cs : { cs : List Condition // ∀ c ∈ cs, ∀ a ∈ c.occurrences, a < n }}
    (h : checkConditions n entries = .ok cs) : cs.1.length = entries.length := by
  induction entries generalizing cs with
  | nil =>
    cases h
    rfl
  | cons e rest ih =>
    obtain ⟨label, c?⟩ := e
    unfold checkConditions at h
    split at h
    · cases h
    · split at h
      · cases h
      next hrest =>
        cases h
        simpa using ih hrest

/-- The framework with the conditions set last, if every declared argument has one and no condition
speaks of an argument that was never declared. -/
def build (B : Builder) : Except Refusal Framework :=
  match h : checkConditions B.labels.size (B.labels.toList.zip B.conditions) with
  | .error e => .error e
  | .ok cs =>
    .ok {
      labels := B.labels
      conditions := cs.1
      length_conditions := by
        rw [length_of_checkConditions h, List.length_zip, B.length_conditions]
        exact Nat.min_self _
      lt_size_of_mem := cs.2 }

end Builder

end Dialectical
