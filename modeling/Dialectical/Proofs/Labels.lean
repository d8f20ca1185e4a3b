import Dialectical.Label
import Dialectical.Proofs.FirstOccurrences
import Std.Data.HashMap.Lemmas

/-!
# Labels and their identifiers

A set of labels is a list without repetitions, and the identifier of a label is its position. Adding
labels one after the other leaves the labels in order of first occurrence
(`LabelSet.toList_ofList`), and looking up a label is the inverse of looking up an identifier
(`LabelSet.find_eq_ok_iff`, `LabelSet.label_eq_ok_iff`).

The list is searched for a label. A table that is kept beside the list, from labels to positions,
answers without a search, and the same (`LabelTable.holds_ofList`): both grow by the same label at
the same time, or neither does.
-/

namespace Dialectical

/-! ### Sets of labels -/

namespace LabelSet

variable {L : LabelSet} {l : String} {a : Nat}

/-- The label of an identifier is the one at that place. -/
theorem label_eq_ok_iff : L.label a = .ok l ↔ L.toList[a]? = some l := by
  rw [label, Fault.lookup]
  cases L.toList[a]? <;> simp

/-- And the identifier of a label is its place. -/
theorem find_eq_ok_iff : L.find l = .ok a ↔ L.toList[a]? = some l := by
  rw [← id?_eq_some_iff, find]
  cases L.id? l <;> simp

/-- A label is not found if and only if it was not declared; the refusal names it. -/
theorem find_eq_error_iff {cause : Refusal} :
    L.find l = .error cause ↔ l ∉ L.toList ∧ cause = .noSuchLabel l := by
  rw [← id?_isSome_iff, find]
  cases L.id? l <;> simp [eq_comm]

theorem exists_find_iff : (∃ a, L.find l = .ok a) ↔ l ∈ L.toList := by
  rw [List.mem_iff_getElem?]
  exact exists_congr fun a ↦ find_eq_ok_iff

/-- The identifiers are the numbers below the size. -/
theorem exists_label_iff : (∃ l, L.label a = .ok l) ↔ a < L.size := by
  constructor
  · rintro ⟨l, hl⟩
    exact (List.getElem?_eq_some_iff.1 (label_eq_ok_iff.1 hl)).1
  · exact fun ha ↦ ⟨_, label_eq_ok_iff.2 (List.getElem?_eq_getElem ha)⟩

/-- **One more declaration** adds the label unless it is there. -/
theorem toList_insert_eraseDups {ls : List String} (h : L.toList = ls.eraseDups) (label : String) :
    (L.insert label).toList = (ls ++ [label]).eraseDups := by
  simp only [toList_insert, eraseDups_concat, h, List.mem_eraseDups]

theorem toList_foldl_insert {ls : List String} (h : L.toList = ls.eraseDups)
    (labels : List String) : (labels.foldl insert L).toList = (ls ++ labels).eraseDups := by
  induction labels generalizing L ls with
  | nil => rwa [List.append_nil]
  | cons label labels ih => simpa using ih (toList_insert_eraseDups h label)

/-- **The labels of a list** are listed without repetitions, in order of first occurrence. -/
theorem toList_ofList (labels : List String) : (ofList labels).toList = labels.eraseDups :=
  have hempty : empty.toList = ([] : List String).eraseDups := rfl
  toList_foldl_insert hempty labels

/-- A set is determined by its list. -/
theorem eq_ofList {ls : List String} (h : L.toList = ls.eraseDups) : L = .ofList ls := by
  have htoList := h.trans (toList_ofList ls).symm
  generalize ofList ls = L' at htoList
  cases L
  cases L'
  congr

/-- A label that is new gets the first identifier that is not in use. -/
theorem id?_insert (L : LabelSet) (label l : String) : (L.insert label).id? l =
    if label ∉ L.toList ∧ label = l then some L.size else L.id? l := by
  by_cases hlabel : label ∈ L.toList
  · rw [if_neg fun h ↦ h.1 hlabel, id?, id?, toList_insert, if_pos hlabel]
  · have htoList : (L.insert label).toList = L.toList ++ [label] := by
      rw [toList_insert, if_neg hlabel]
    by_cases hl : label = l
    · rw [if_pos ⟨hlabel, hl⟩, id?_eq_some_iff, htoList, hl]
      exact List.getElem?_concat_length
    · rw [if_neg fun h ↦ hl h.2]
      refine Option.ext fun a ↦ ?_
      rw [id?_eq_some_iff, id?_eq_some_iff, htoList]
      grind

/-- A label has one place. -/
theorem eq_of_getElem?_toList {b : Nat} (ha : L.toList[a]? = some l) (hb : L.toList[b]? = some l) :
    a = b :=
  Option.some.inj ((id?_eq_some_iff.2 ha).symm.trans (id?_eq_some_iff.2 hb))

/-- Labels that are there keep their places. -/
theorem getElem?_toList_insert_of_lt (ha : a < L.size) (label : String) :
    (L.insert label).toList[a]? = L.toList[a]? := by
  rw [toList_insert]
  split
  · rfl
  · exact List.getElem?_append_left ha

/-- What is found at a new place was not there before. -/
theorem not_mem_of_getElem?_toList_insert {label : String} (ha : L.size ≤ a)
    (hl : (L.insert label).toList[a]? = some l) : l ∉ L.toList := by
  intro hmem
  obtain ⟨b, hb⟩ := List.mem_iff_getElem?.1 hmem
  have hlt : b < L.size := (List.getElem?_eq_some_iff.1 hb).1
  rw [← getElem?_toList_insert_of_lt hlt label] at hb
  exact absurd (eq_of_getElem?_toList hb hl) (by omega)

end LabelSet

/-! ### The table of labels -/

/-- Labels with their identifiers, and where each label stands among them. -/
structure LabelTable where
  /-- The labels with their identifiers, in order of identifiers. -/
  entries : List (Nat × String)
  /-- The position of each label in the list of the entries. -/
  positions : Std.HashMap String Nat

namespace LabelTable

variable {T : LabelTable} {L : LabelSet}

/-- Declares a label. A label that is declared already keeps its place. -/
def insert (T : LabelTable) (label : String) : LabelTable :=
  if T.positions.contains label then T
  else
    { entries := T.entries ++ [(T.entries.length, label)]
      positions := T.positions.insert label T.entries.length }

/-- The table of the labels of a list, in order of their first occurrence. -/
def ofList (labels : List String) : LabelTable := labels.foldl insert ⟨[], ∅⟩

/-- The identifier of a label, which is that of the entry at its position. -/
def id? (T : LabelTable) (label : String) : Option Nat :=
  (T.positions[label]?.bind (T.entries[·]?)).map Prod.fst

/-- The label with an identifier. -/
def label? (T : LabelTable) (a : Nat) : Option String := T.entries[a]?.map Prod.snd

/-- The table has the labels of a set, each at its place. -/
structure Holds (T : LabelTable) (L : LabelSet) : Prop where
  entries_eq : T.entries = L.toList.mapIdx Prod.mk
  positions_eq : ∀ l, T.positions[l]? = L.id? l

/-- **One declaration**, made in the table and in the set. -/
theorem Holds.insert (h : T.Holds L) (label : String) :
    (T.insert label).Holds (L.insert label) := by
  have hcontains : T.positions.contains label = true ↔ label ∈ L.toList := by
    rw [← LabelSet.id?_isSome_iff, ← h.positions_eq, Std.HashMap.contains_eq_isSome_getElem?]
  have hlength : T.entries.length = L.size := by
    rw [h.entries_eq, List.length_mapIdx, LabelSet.size]
  rw [LabelTable.insert]
  by_cases hlabel : label ∈ L.toList
  · rw [if_pos (hcontains.2 hlabel)]
    refine ⟨?_, fun l ↦ ?_⟩
    · rw [LabelSet.toList_insert, if_pos hlabel, h.entries_eq]
    · rw [LabelSet.id?_insert, if_neg fun hnew ↦ hnew.1 hlabel, h.positions_eq]
  · rw [if_neg (mt hcontains.1 hlabel)]
    refine ⟨?_, fun l ↦ ?_⟩
    · rw [LabelSet.toList_insert, if_neg hlabel, List.mapIdx_append, ← h.entries_eq, hlength]
      simp [LabelSet.size]
    · rw [LabelSet.id?_insert, Std.HashMap.getElem?_insert, h.positions_eq, hlength]
      simp [hlabel]

theorem holds_foldl_insert (h : T.Holds L) (labels : List String) :
    (labels.foldl LabelTable.insert T).Holds (labels.foldl LabelSet.insert L) := by
  induction labels generalizing T L with
  | nil => exact h
  | cons label labels ih => exact ih (h.insert label)

/-- **The table holds the set**, when both are made of the same labels one after the other. -/
theorem holds_ofList (labels : List String) : (ofList labels).Holds (.ofList labels) :=
  holds_foldl_insert ⟨rfl, fun _ ↦ Std.HashMap.getElem?_empty⟩ labels

/-- What a table answers. -/
theorem Holds.id?_eq (h : T.Holds L) (l : String) : T.id? l = L.id? l := by
  rw [id?, h.positions_eq, h.entries_eq]
  cases hid : L.id? l with
  | none => rfl
  | some a => simp [LabelSet.id?_eq_some_iff.1 hid]

theorem Holds.label?_eq (h : T.Holds L) (a : Nat) : T.label? a = L.toList[a]? := by
  simp [label?, h.entries_eq, Function.comp_def]

end LabelTable

end Dialectical
