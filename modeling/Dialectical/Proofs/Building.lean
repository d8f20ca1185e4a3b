import Dialectical.Framework.Builder
import Dialectical.Proofs.Labels

/-!
# Builders and their histories

A builder is told labels and conditions, in any order and any number of times: a label may be
declared again, a condition may be replaced, it may speak of arguments that are declared only later,
and it is refused for a label that is not declared yet. What the builder is then, and what it
builds, is a function of its history (`Builder.follows_history`).

* The identifiers are the positions in the list of all declarations without its repetitions.
* The condition of a label is the one in the last call that set it while it was declared
  (`Builder.SetLast`). The last call of a history decides, if it is about the label; else it is as
  before (`Builder.setLast_concat`). So both are kept by each call (`Builder.Tracks.after`).
* A framework is built if and only if every argument has a condition that stays below the final
  number of arguments, and the conditions of the framework are those of the builder
  (`Builder.build_eq_ok_iff`).
-/

namespace Dialectical

/-! ### Building -/

namespace Builder

variable {B : Builder} {n : Nat}

/-- There is a place for the condition of every label. -/
theorem lt_length_conditions {a : Nat} {l : String} (h : B.labels.toList[a]? = some l) :
    a < B.conditions.length := by
  rw [B.length_conditions]
  exact (List.getElem?_eq_some_iff.1 h).1

/-- A condition passes the check if it was set and mentions only arguments that exist. -/
theorem checkCondition_eq_ok_iff {label : String} {c? : Option Condition} {c : Condition} :
    checkCondition n label c? = .ok c ↔ c? = some c ∧ ∀ a ∈ c.occurrences, a < n := by
  cases c? with
  | none => simp [checkCondition]
  | some d =>
    rw [checkCondition]
    cases hfind : d.leaves.find? (n ≤ ·) with
    | some a =>
      -- the argument that was found is out of range
      have ha : a ∈ d.occurrences := Formula.mem_leaves.1 (List.mem_of_find?_eq_some hfind)
      have hle : n ≤ a := by simpa using List.find?_some hfind
      refine iff_of_false (fun hok ↦ by cases hok) ?_
      rintro ⟨hd, hlt⟩
      cases hd
      exact absurd (hlt a ha) (Nat.not_lt.2 hle)
    | none =>
      have hlt : ∀ a ∈ d.occurrences, a < n := fun a ha ↦ by
        simpa using List.find?_eq_none.1 hfind a (Formula.mem_leaves.2 ha)
      constructor
      · intro hd
        cases hd
        exact ⟨rfl, hlt⟩
      · rintro ⟨hd, -⟩
        cases hd
        rfl

/-- The conditions that pass are those that were set. -/
theorem checkConditions_eq_ok_iff {entries : List (String × Option Condition)}
    {cs : { cs : List Condition // ∀ c ∈ cs, ∀ a ∈ c.occurrences, a < n }} :
    checkConditions n entries = .ok cs ↔ entries.map Prod.snd = cs.1.map some := by
  induction entries generalizing cs with
  | nil =>
    obtain ⟨cs, hcs⟩ := cs
    rw [checkConditions]
    cases cs <;> simp
  | cons entry rest ih =>
    obtain ⟨label, c?⟩ := entry
    constructor
    · intro h
      unfold checkConditions at h
      split at h
      · cases h
      next c hc =>
        split at h
        · cases h
        next cs' hcs' hrest =>
          cases h
          rw [List.map_cons, List.map_cons, (checkCondition_eq_ok_iff.1 hc).1, ih.1 hrest]
    · intro h
      obtain ⟨_ | ⟨c, cs⟩, hcs⟩ := cs
      · cases h
      obtain ⟨hc, hrest⟩ := List.cons.inj h
      have hrange : checkCondition n label c? = .ok c :=
        checkCondition_eq_ok_iff.2 ⟨hc, hcs c (by simp)⟩
      have hpass : checkConditions n rest = .ok ⟨cs, fun d hd ↦ hcs d (by simp [hd])⟩ := ih.2 hrest
      unfold checkConditions
      split
      next hcause => rw [hrange] at hcause; cases hcause
      next d hd =>
        rw [hrange] at hd
        cases hd
        rw [hpass]

/-- **What is built** has the labels of the builder, and its conditions are those that were set. -/
theorem build_eq_ok_iff {F : Framework} :
    B.build = .ok F ↔ F.labels = B.labels ∧ B.conditions = F.conditions.map some := by
  have hzip : (B.labels.toList.zip B.conditions).map Prod.snd = B.conditions :=
    List.map_snd_zip (B.length_conditions ▸ Nat.le_refl _)
  constructor
  · intro h
    unfold build at h
    split at h
    · cases h
    next cs hcs =>
      cases h
      exact ⟨rfl, hzip.symm.trans (checkConditions_eq_ok_iff.1 hcs)⟩
  · obtain ⟨labels, conditions, hlength, hrange⟩ := F
    rintro ⟨rfl, hconditions⟩
    have hpass : checkConditions B.labels.size (B.labels.toList.zip B.conditions) =
        .ok ⟨conditions, hrange⟩ := checkConditions_eq_ok_iff.2 (hzip.trans hconditions)
    unfold build
    split
    next hcause => rw [hpass] at hcause; cases hcause
    next cs hcs =>
      rw [hpass] at hcs
      cases hcs
      rfl

/-- A framework is built if every argument has a condition that does not leave the framework. -/
theorem exists_build_iff : (∃ F, B.build = .ok F) ↔
    ∀ c? ∈ B.conditions, ∃ c, c? = some c ∧ ∀ a ∈ c.occurrences, a < B.labels.size := by
  constructor
  · rintro ⟨F, hF⟩ c? hc?
    obtain ⟨hlabels, hconditions⟩ := build_eq_ok_iff.1 hF
    rw [hconditions] at hc?
    obtain ⟨c, hc, rfl⟩ := List.mem_map.1 hc?
    exact ⟨c, rfl, hlabels ▸ F.lt_size_of_mem c hc⟩
  · intro h
    have : Nonempty Condition := ⟨.bot⟩
    choose! condition hcondition hrange using h
    have hconditions : B.conditions = (B.conditions.map condition).map some := by
      rw [List.map_map]
      exact (List.map_id' _).symm.trans (List.map_congr_left hcondition)
    exact ⟨{
      labels := B.labels
      conditions := B.conditions.map condition
      length_conditions := by rw [List.length_map, B.length_conditions]
      lt_size_of_mem := List.forall_mem_map.2 hrange }, build_eq_ok_iff.2 ⟨rfl, hconditions⟩⟩

/-! ### Histories -/

/-- A call of a builder. -/
inductive Call where
  | declare (label : String)
  | setCondition (label : String) (c : Condition)
  deriving DecidableEq, Repr

/-- What a call makes of a builder, or why it is refused. -/
def call (B : Builder) : Call → Except Refusal Builder
  | .declare label => .ok (B.declare label)
  | .setCondition label c => B.setCondition label c

/-- The builder after a call. A call that is refused leaves the builder as it was. -/
def after (B : Builder) (k : Call) : Builder := (B.call k).toOption.getD B

/-- The builder that begins with some labels, after some calls. -/
def ofCalls (labels : List String) (calls : List Call) : Builder :=
  calls.foldl after (ofLabels labels)

/-- The labels of all declarations, in order and with repetitions. -/
def declared (labels : List String) (calls : List Call) : List String :=
  labels ++ calls.filterMap fun
    | .declare label => some label
    | .setCondition .. => none

/-- The condition was set by a call that found the label declared, and by the last one for the
label. Once a label is declared no call for it is refused, so the calls before do not matter. -/
def SetLast (labels : List String) (calls : List Call) (l : String) (c : Condition) : Prop :=
  ∃ before later, calls = before ++ .setCondition l c :: later ∧ l ∈ declared labels before ∧
    ∀ d, .setCondition l d ∉ later

section

variable {labels : List String} {calls : List Call} {l m : String} {c d : Condition}

/-- Later calls go on declaring where earlier ones stopped. -/
theorem declared_append (later : List Call) :
    declared labels (calls ++ later) = declared (declared labels calls) later := by
  simp [declared]

theorem declared_concat_declare : declared labels (calls ++ [.declare m]) =
    declared labels calls ++ [m] := by
  simp [declared]

theorem declared_concat_setCondition : declared labels (calls ++ [.setCondition m d]) =
    declared labels calls := by
  simp [declared]

/-- A condition is set for a declared label only. -/
theorem SetLast.mem_declared (h : SetLast labels calls l c) : l ∈ declared labels calls := by
  obtain ⟨before, later, rfl, hl, -⟩ := h
  rw [declared_append]
  exact List.mem_append_left _ hl

/-- **The last call decides**, if it is about the label; else it is as before. -/
theorem setLast_concat {k : Call} : SetLast labels (calls ++ [k]) l c ↔
    k = .setCondition l c ∧ l ∈ declared labels calls ∨
      (∀ d, k ≠ .setCondition l d) ∧ SetLast labels calls l c := by
  constructor
  · rintro ⟨before, later, heq, hl, hlater⟩
    rcases later.eq_nil_or_concat' with rfl | ⟨later, k', rfl⟩
    · obtain ⟨rfl, hk⟩ := List.append_inj' heq rfl
      exact .inl ⟨List.singleton_inj.1 hk, hl⟩
    · rw [← List.cons_append, ← List.append_assoc] at heq
      obtain ⟨rfl, hk⟩ := List.append_inj' heq rfl
      obtain rfl := List.singleton_inj.1 hk
      exact .inr ⟨fun d hd ↦ hlater d (by simp [hd]), before, later, rfl, hl,
        fun d hd ↦ hlater d (List.mem_append_left _ hd)⟩
  · rintro (⟨rfl, hl⟩ | ⟨hk, before, later, rfl, hl, hlater⟩)
    · exact ⟨calls, [], rfl, hl, fun d ↦ List.not_mem_nil⟩
    · refine ⟨before, later ++ [k], by simp, hl, fun d hd ↦ ?_⟩
      rcases List.mem_append.1 hd with hd | hd
      · exact hlater d hd
      · exact hk d (List.mem_singleton.1 hd).symm

/-- The builder is what its history says: it has the labels that were declared, each once, and for
each of them the condition that was set last. -/
structure Tracks (B : Builder) (labels : List String) (calls : List Call) : Prop where
  toList_eq : B.labels.toList = (declared labels calls).eraseDups
  condition_iff : ∀ {a : Nat} {l : String} {c : Condition}, B.labels.toList[a]? = some l →
    (B.conditions[a]? = some (some c) ↔ SetLast labels calls l c)

/-- The labels of the builder are those that were declared. -/
theorem Tracks.mem_iff (h : B.Tracks labels calls) :
    l ∈ B.labels.toList ↔ l ∈ declared labels calls := by
  rw [h.toList_eq, List.mem_eraseDups]

/-- **No calls.** A new builder has its labels and no conditions. -/
theorem tracks_ofLabels (labels : List String) : (ofLabels labels).Tracks labels [] where
  toList_eq := by
    rw [declared, List.filterMap_nil, List.append_nil]
    exact LabelSet.toList_ofList labels
  condition_iff {a l c} _ := by
    refine iff_of_false (fun h ↦ ?_) fun ⟨before, later, heq, _⟩ ↦ by simp at heq
    simp [ofLabels, List.getElem?_replicate] at h

/-- **A declaration.** A label that was declared before keeps its place and its condition, and a new
one has no condition yet. -/
theorem Tracks.declare (h : B.Tracks labels calls) (m : String) :
    (B.declare m).Tracks labels (calls ++ [.declare m]) where
  toList_eq := by
    rw [declared_concat_declare]
    exact LabelSet.toList_insert_eraseDups h.toList_eq m
  condition_iff {a l c} ha := by
    have hset : SetLast labels (calls ++ [.declare m]) l c ↔ SetLast labels calls l c := by
      simp [setLast_concat]
    rw [hset]
    by_cases hlt : a < B.labels.size
    · -- an old label keeps its place and its condition
      have hold : B.labels.toList[a]? = some l := by
        rwa [← LabelSet.getElem?_toList_insert_of_lt hlt]
      rw [← h.condition_iff hold, Builder.declare,
        List.getElem?_append_left (B.length_conditions ▸ hlt)]
    · -- a new label was not declared before, so there is no condition for it
      refine iff_of_false (fun hc ↦ ?_) fun hc ↦ ?_
      · rw [Builder.declare, List.getElem?_append_right (B.length_conditions ▸ Nat.not_lt.1 hlt),
          List.getElem?_replicate] at hc
        split at hc <;> simp at hc
      · exact LabelSet.not_mem_of_getElem?_toList_insert (Nat.not_lt.1 hlt) ha
          (h.mem_iff.2 hc.mem_declared)

/-- **A condition that is accepted** takes the place of the one before, and the other ones stay. -/
theorem Tracks.setCondition {B' : Builder} (h : B.Tracks labels calls)
    (hB : B.setCondition m d = .ok B') : B'.Tracks labels (calls ++ [.setCondition m d]) := by
  rw [Builder.setCondition] at hB
  cases hfind : B.labels.find m with
  | error cause =>
    rw [hfind] at hB
    cases hB
  | ok b =>
    rw [hfind] at hB
    cases hB
    have hb : B.labels.toList[b]? = some m := LabelSet.find_eq_ok_iff.1 hfind
    refine ⟨by rw [declared_concat_setCondition, h.toList_eq], fun {a l c} ha ↦ ?_⟩
    by_cases hab : b = a
    · -- the label is the one whose condition is set
      subst hab
      obtain rfl : m = l := Option.some.inj (hb.symm.trans ha)
      have hlt := lt_length_conditions hb
      have hm : m ∈ declared labels calls := h.mem_iff.1 (List.mem_of_getElem? hb)
      simp [setLast_concat, hlt, hm]
    · have hml : m ≠ l := by
        rintro rfl
        exact hab (LabelSet.eq_of_getElem?_toList hb ha)
      rw [List.getElem?_set_ne hab, h.condition_iff ha, setLast_concat]
      simp [hml]

/-- A condition is refused if and only if its label was not declared, and the refusal names that
label. -/
theorem setCondition_eq_error_iff {cause : Refusal} : B.setCondition m d = .error cause ↔
    m ∉ B.labels.toList ∧ cause = .settingCondition m (.noSuchLabel m) := by
  rw [setCondition]
  cases hfind : B.labels.find m with
  | error cause' =>
    obtain ⟨hm, rfl⟩ := LabelSet.find_eq_error_iff.1 hfind
    simp [hm, eq_comm]
  | ok b =>
    have hm := List.mem_of_getElem? (LabelSet.find_eq_ok_iff.1 hfind)
    simp [hm]

/-- A builder that refuses a condition stays as it is. -/
theorem after_setCondition_of_not_mem (hm : m ∉ B.labels.toList) :
    B.after (.setCondition m d) = B := by
  rw [after, call, setCondition_eq_error_iff.2 ⟨hm, rfl⟩]
  rfl

/-- A call that is refused changes nothing, so what was set last is as before. -/
theorem Tracks.refused (h : B.Tracks labels calls) (hm : m ∉ B.labels.toList) :
    B.Tracks labels (calls ++ [.setCondition m d]) where
  toList_eq := by rw [declared_concat_setCondition, h.toList_eq]
  condition_iff {a l c} ha := by
    have hml : m ≠ l := by
      rintro rfl
      exact hm (List.mem_of_getElem? ha)
    rw [h.condition_iff ha, setLast_concat]
    simp [hml]

/-- **One call.** -/
theorem Tracks.after (h : B.Tracks labels calls) (k : Call) :
    (B.after k).Tracks labels (calls ++ [k]) := by
  cases k with
  | declare m => exact h.declare m
  | setCondition m d =>
    cases hB : B.setCondition m d with
    | ok B' =>
      have hafter : B.after (.setCondition m d) = B' := by rw [Builder.after, call, hB]; rfl
      rw [hafter]
      exact h.setCondition hB
    | error cause =>
      have hm := (setCondition_eq_error_iff.1 hB).1
      rw [after_setCondition_of_not_mem hm]
      exact h.refused hm

/-- The last call acts on what the calls before it built. -/
theorem ofCalls_concat (labels : List String) (calls : List Call) (k : Call) :
    ofCalls labels (calls ++ [k]) = (ofCalls labels calls).after k :=
  List.foldl_concat ..

/-- **All calls**, by induction on the history from its end. -/
theorem tracks_ofCalls (labels : List String) (calls : List Call) :
    (ofCalls labels calls).Tracks labels calls := by
  induction calls using List.reverseRecOn with
  | nil => exact tracks_ofLabels labels
  | append_singleton calls k ih =>
    rw [ofCalls_concat]
    exact ih.after k

/-- A condition is set exactly for a label that is declared. -/
theorem setCondition_isOk_iff : (∃ B', B.setCondition m d = .ok B') ↔ m ∈ B.labels.toList := by
  cases hB : B.setCondition m d with
  | ok B' =>
    refine iff_of_true ⟨B', rfl⟩ (Decidable.byContradiction fun hm ↦ ?_)
    have herror : B.setCondition m d = .error _ := setCondition_eq_error_iff.2 ⟨hm, rfl⟩
    rw [hB] at herror
    cases herror
  | error cause =>
    refine iff_of_false (fun h ↦ ?_) (setCondition_eq_error_iff.1 hB).1
    obtain ⟨B', hB'⟩ := h
    cases hB'

/-- A framework is built if the conditions that were set last stay below the number of labels. -/
theorem Tracks.exists_build_iff (h : B.Tracks labels calls) : (∃ F, B.build = .ok F) ↔
    ∀ l ∈ declared labels calls, ∃ c, SetLast labels calls l c ∧
      ∀ a ∈ c.occurrences, a < B.labels.size := by
  rw [Builder.exists_build_iff]
  constructor
  · intro hall l hl
    obtain ⟨a, ha⟩ := List.mem_iff_getElem?.1 (h.mem_iff.2 hl)
    have hlt := lt_length_conditions ha
    obtain ⟨c, hc, hrange⟩ := hall _ (List.getElem_mem hlt)
    exact ⟨c, (h.condition_iff ha).1 (List.getElem?_eq_some_iff.2 ⟨hlt, hc⟩), hrange⟩
  · intro hall c? hc?
    obtain ⟨a, ha⟩ := List.mem_iff_getElem?.1 hc?
    have hlt : a < B.labels.toList.length := by
      rw [← LabelSet.size, ← B.length_conditions]
      exact (List.getElem?_eq_some_iff.1 ha).1
    have hl := List.getElem?_eq_getElem hlt
    obtain ⟨c, hset, hrange⟩ := hall _ (h.mem_iff.1 (List.getElem_mem hlt))
    have hc := (h.condition_iff hl).2 hset
    exact ⟨c, Option.some.inj (ha.symm.trans hc), hrange⟩

/-- What is built gives every label the condition that was set last. -/
theorem Tracks.conditionOf_iff (h : B.Tracks labels calls) {F : Framework} (hF : B.build = .ok F) :
    F.conditionOf l = .ok c ↔ SetLast labels calls l c := by
  obtain ⟨hlabels, hconditions⟩ := build_eq_ok_iff.1 hF
  have hcondition : ∀ {a : Nat}, B.labels.toList[a]? = some l →
      (F.condition a = c ↔ SetLast labels calls l c) := by
    intro a ha
    have hlt : a < F.conditions.length := by
      rw [F.length_conditions, hlabels]
      exact (List.getElem?_eq_some_iff.1 ha).1
    rw [← h.condition_iff ha, hconditions, List.getElem?_map, Framework.condition,
      List.getElem?_eq_getElem hlt]
    simp
  rw [Framework.conditionOf, hlabels]
  cases hfind : B.labels.find l with
  | ok a =>
    rw [← hcondition (LabelSet.find_eq_ok_iff.1 hfind)]
    exact ⟨fun hok ↦ Except.ok.inj hok, fun hok ↦ congrArg Except.ok hok⟩
  | error cause =>
    refine iff_of_false (fun hok ↦ by cases hok) fun hset ↦ ?_
    exact (LabelSet.find_eq_error_iff.1 hfind).1 (h.mem_iff.2 hset.mem_declared)

end

/-- **A builder is what its history says.** Whatever labels it begins with, and whatever calls it
gets:

* The labels are those that were declared, each once, in order of first declaration. Labels and
  identifiers determine each other: looking up one is the inverse of looking up the other, the
  labels that are found are those that were declared, and the identifiers are those below their
  number. A table that is kept beside the list answers the same.
* Setting the condition of a label is refused if and only if the label is not declared, and then
  nothing changes.
* A framework is built if and only if every declared label has a condition, and none that was set
  last speaks of an identifier that is not in use in the end. It has the labels of the builder, and
  each of them has the condition that was set last.
-/
theorem follows_history (labels : List String) (calls : List Call) :
    (ofCalls labels calls).labels.toList = (declared labels calls).eraseDups ∧
    (∀ l a, (ofCalls labels calls).labels.find l = .ok a ↔
      (ofCalls labels calls).labels.label a = .ok l) ∧
    (∀ l, (∃ a, (ofCalls labels calls).labels.find l = .ok a) ↔ l ∈ declared labels calls) ∧
    (∀ a, (∃ l, (ofCalls labels calls).labels.label a = .ok l) ↔
      a < (declared labels calls).eraseDups.length) ∧
    (∀ l m a b, (ofCalls labels calls).labels.find l = .ok a →
      (ofCalls labels calls).labels.find m = .ok b →
        (a < b ↔ (declared labels calls).idxOf l < (declared labels calls).idxOf m)) ∧
    (∀ l, (LabelTable.ofList (declared labels calls)).id? l =
      (ofCalls labels calls).labels.id? l) ∧
    (∀ a, (LabelTable.ofList (declared labels calls)).label? a =
      (ofCalls labels calls).labels.toList[a]?) ∧
    (∀ l c, (l ∉ declared labels calls ↔ (ofCalls labels calls).setCondition l c =
        .error (.settingCondition l (.noSuchLabel l))) ∧
      (l ∈ declared labels calls ↔ ∃ B, (ofCalls labels calls).setCondition l c = .ok B) ∧
      (l ∉ declared labels calls →
        ofCalls labels (calls ++ [.setCondition l c]) = ofCalls labels calls)) ∧
    ((∃ F, (ofCalls labels calls).build = .ok F) ↔
      ∀ l ∈ declared labels calls, ∃ c, SetLast labels calls l c ∧
        ∀ a ∈ c.occurrences, a < (declared labels calls).eraseDups.length) ∧
    ∀ F, (ofCalls labels calls).build = .ok F → F.labels = (ofCalls labels calls).labels ∧
      ∀ l c, F.conditionOf l = .ok c ↔ SetLast labels calls l c := by
  have h := tracks_ofCalls labels calls
  have hsize : (ofCalls labels calls).labels.size = (declared labels calls).eraseDups.length :=
    congrArg List.length h.toList_eq
  have hlookup : ∀ l a, (ofCalls labels calls).labels.find l = .ok a ↔
      (ofCalls labels calls).labels.label a = .ok l := fun l a ↦
    LabelSet.find_eq_ok_iff.trans LabelSet.label_eq_ok_iff.symm
  have htable : (LabelTable.ofList (declared labels calls)).Holds
      (ofCalls labels calls).labels := by
    rw [LabelSet.eq_ofList h.toList_eq]
    exact LabelTable.holds_ofList _
  refine ⟨h.toList_eq, hlookup, fun l ↦ ?_, fun a ↦ ?_, fun l m a b ha hb ↦ ?_, htable.id?_eq,
    htable.label?_eq, fun l c ↦ ⟨?_, ?_, fun hl ↦ ?_⟩, ?_,
    fun F hF ↦ ⟨(build_eq_ok_iff.1 hF).1, fun l c ↦ ?_⟩⟩
  · rw [LabelSet.exists_find_iff, h.mem_iff]
  · rw [LabelSet.exists_label_iff, hsize]
  · rw [LabelSet.find_eq_ok_iff, h.toList_eq] at ha hb
    exact lt_iff_idxOf_lt ha hb
  · rw [setCondition_eq_error_iff, h.mem_iff]
    exact (and_iff_left rfl).symm
  · rw [setCondition_isOk_iff, h.mem_iff]
  · rw [ofCalls_concat, after_setCondition_of_not_mem (mt h.mem_iff.1 hl)]
  · rw [h.exists_build_iff, hsize]
  · exact h.conditionOf_iff hF

/-- The condition of the first argument speaks of one that is declared only later, and its second
condition replaces the first. -/
example : (((ofCalls ["x"] [.setCondition "x" (.leaf 1), .setCondition "y" .top, .declare "y",
      .declare "x", .setCondition "y" .bot, .setCondition "x" (.neg (.leaf 1))]).build).map
        Framework.conditions) = .ok [.neg (.leaf 1), .bot] := by
  decide

end Builder

end Dialectical
