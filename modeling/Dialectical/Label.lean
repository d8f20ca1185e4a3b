import Dialectical.Error

/-!
# Labels

The labels of the arguments of a framework, in order of declaration. The identifier of an argument
is the position of its label; since no label occurs twice, labels and identifiers determine each
other.
-/

namespace Dialectical

/-- A list of labels without repetition. -/
structure LabelSet where
  /-- The labels in order of declaration. -/
  toList : List String
  /-- No label is declared twice. -/
  nodup : toList.Nodup

namespace LabelSet

/-- No labels. -/
def empty : LabelSet := ⟨[], .nil⟩

/-- The number of labels. -/
def size (L : LabelSet) : Nat := L.toList.length

/-- Declares a label. A label that is declared already keeps its place. -/
def insert (L : LabelSet) (label : String) : LabelSet :=
  if h : label ∈ L.toList then L
  else
    ⟨L.toList ++ [label], by
      rw [List.nodup_append]
      refine ⟨L.nodup, List.pairwise_singleton _ _, fun a ha b hb ↦ ?_⟩
      rw [List.mem_singleton.1 hb]
      exact fun hab ↦ h (hab ▸ ha)⟩

/-- The set of the labels of a list, in order of their first occurrence. -/
def ofList (labels : List String) : LabelSet :=
  labels.foldl insert empty

/-- The identifier of a label. -/
def id? (L : LabelSet) (label : String) : Option Nat :=
  L.toList.idxOf? label

/-- The identifier of a label, or the refusal that there is no such label. -/
def find (L : LabelSet) (label : String) : Except Refusal Nat :=
  match L.id? label with
  | some a => .ok a
  | none => .error (.noSuchLabel label)

/-- The label with an identifier. -/
def label (L : LabelSet) (a : Nat) : Except Fault String :=
  Fault.lookup L.toList a

@[simp]
theorem toList_empty : empty.toList = [] := rfl

theorem toList_insert (L : LabelSet) (label : String) :
    (L.insert label).toList = if label ∈ L.toList then L.toList else L.toList ++ [label] := by
  unfold insert
  split <;> rfl

theorem mem_toList_insert {L : LabelSet} {l label : String} :
    l ∈ (L.insert label).toList ↔ l ∈ L.toList ∨ l = label := by
  rw [toList_insert]
  split <;> simp_all

/-- Labels and identifiers determine each other. -/
theorem id?_eq_some_iff {L : LabelSet} {l : String} {a : Nat} :
    L.id? l = some a ↔ L.toList[a]? = some l := by
  unfold id?
  rw [List.idxOf?_eq_some_iff, List.getElem?_eq_some_iff]
  constructor
  · rintro ⟨h, hl, -⟩
    exact ⟨h, hl⟩
  · rintro ⟨h, hl⟩
    refine ⟨h, hl, fun j hj hlj ↦ ?_⟩
    have := (List.getElem_inj L.nodup).1 (hlj.trans hl.symm)
    omega

theorem id?_isSome_iff {L : LabelSet} {l : String} : (L.id? l).isSome ↔ l ∈ L.toList := by
  rw [Option.isSome_iff_exists, List.mem_iff_getElem?]
  exact exists_congr fun a ↦ id?_eq_some_iff

end LabelSet

end Dialectical
