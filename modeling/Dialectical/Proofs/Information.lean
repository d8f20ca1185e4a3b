import Dialectical.Interpretation
import Mathlib.Order.Bounds.Basic
import Mathlib.Data.Set.Card

/-!
# The information order

Interpretations of one size are ordered by what they decide: `I ≤ J` if `J` gives every argument
that `I` decides the same truth value. `Interpretation.Decides` says that an argument has a truth
value, and everything below is read off it: an interpretation is determined by its size and by what
it decides (`ext_of_decides`), so the order is a partial one, and `extends?` computes it
(`extends?_iff`).

A *completion* of an interpretation is a valuation of the arguments that gives the decided ones
their values. There is always one (`completedBy_withDefault`), and a larger interpretation has fewer
(`CompletedBy.mono`).

Searches end because there are at most `3 ^ n` interpretations of size `n` (`ncard_le`).
-/

namespace Dialectical

namespace Status

theorem value?_eq_some_iff {s : Status} {b : Bool} : s.value? = some b ↔ s = .ofBool b := by
  cases s <;> cases b <;> decide

theorem ofBool_ne_undecided (b : Bool) : Status.ofBool b ≠ .undecided := by
  cases b <;> decide

theorem ofBool_injective {b c : Bool} (h : Status.ofBool b = .ofBool c) : b = c := by
  revert h
  cases b <;> cases c <;> decide

/-- A status is a truth value or says that there is none. -/
theorem eq_ofBool_or_undecided (s : Status) : (∃ b, s = .ofBool b) ∨ s = .undecided := by
  cases s
  · exact .inl ⟨true, rfl⟩
  · exact .inl ⟨false, rfl⟩
  · exact .inr rfl

end Status

namespace Interpretation

variable {I J K : Interpretation} {a n : Nat} {b c : Bool}

/-! ### What an interpretation decides -/

/-- The interpretation gives the argument this truth value. -/
def Decides (I : Interpretation) (a : Nat) (b : Bool) : Prop := I.status? a = some (.ofBool b)

instance (I : Interpretation) (a : Nat) (b : Bool) : Decidable (I.Decides a b) :=
  inferInstanceAs (Decidable (_ = _))

/-- An argument is given one value at most. -/
theorem Decides.unique (h : I.Decides a b) (h' : I.Decides a c) : b = c :=
  Status.ofBool_injective (Option.some.inj (h.symm.trans h'))

theorem Decides.lt_size (h : I.Decides a b) : a < I.size :=
  (List.getElem?_eq_some_iff.1 h).1

/-- Only the arguments of an interpretation have a status. -/
theorem lt_size_of_status? {s : Status} (h : I.status? a = some s) : a < I.size :=
  (List.getElem?_eq_some_iff.1 h).1

/-- And each of them has one. -/
theorem status?_of_lt (h : a < I.size) : I.status? a = some I.statuses[a] :=
  List.getElem?_eq_getElem h

/-- The status that a lookup with a bounds check finds. -/
theorem status_eq_ok {s : Status} : I.status a = .ok s ↔ I.status? a = some s := by
  unfold status Fault.lookup status?
  cases I.statuses[a]? <;> simp

/-- An argument of the interpretation is decided or undecided. -/
theorem decides_or_undecided (h : a < I.size) :
    (∃ b, I.Decides a b) ∨ I.status? a = some .undecided := by
  rcases Status.eq_ofBool_or_undecided I.statuses[a] with ⟨b, hb⟩ | hu
  · exact .inl ⟨b, by rw [Decides, status?_of_lt h, hb]⟩
  · exact .inr (by rw [status?_of_lt h, hu])

theorem not_decides_of_undecided (h : I.status? a = some .undecided) : ¬I.Decides a b := by
  intro hb
  exact Status.ofBool_ne_undecided b (Option.some.inj (hb.symm.trans h))

/-- An argument with neither value is undecided. -/
theorem undecided_of_not_decides (h : a < I.size) (hd : ∀ b, ¬I.Decides a b) :
    I.status? a = some .undecided :=
  (decides_or_undecided h).resolve_left fun ⟨b, hb⟩ ↦ hd b hb

theorem isSatisfied_iff : I.isSatisfied a ↔ I.Decides a true := by
  simp [isSatisfied, Decides, Status.ofBool]

theorem isUnsatisfied_iff : I.isUnsatisfied a ↔ I.Decides a false := by
  simp [isUnsatisfied, Decides, Status.ofBool]

/-- What is satisfied is not unsatisfied. -/
theorem Decides.isUnsatisfied_eq_false (h : I.Decides a true) : I.isUnsatisfied a = false :=
  Bool.eq_false_iff.2 fun hu ↦ Bool.noConfusion (h.unique (isUnsatisfied_iff.1 hu))

/-- An interpretation is determined by its size and by what it decides. -/
theorem ext_of_decides (hsize : I.size = J.size) (h : ∀ a b, I.Decides a b ↔ J.Decides a b) :
    I = J := by
  refine Interpretation.ext (List.ext_getElem? fun a ↦ ?_)
  show I.status? a = J.status? a
  by_cases ha : a < I.size
  · rcases decides_or_undecided ha with ⟨b, hb⟩ | hu
    · exact hb.trans ((h a b).1 hb).symm
    · have hJ : J.status? a = some .undecided :=
        undecided_of_not_decides (hsize ▸ ha) fun b hb ↦
          not_decides_of_undecided hu ((h a b).2 hb)
      rw [hu, hJ]
  · unfold status?
    rw [List.getElem?_eq_none (Nat.le_of_not_lt ha),
      List.getElem?_eq_none (show J.size ≤ a by omega)]

/-- Different interpretations of one size differ at an argument. -/
theorem exists_status?_ne (hsize : I.size = J.size) (h : I ≠ J) :
    ∃ a s, I.status? a = some s ∧ J.status? a ≠ some s := by
  by_contra hno
  push Not at hno
  refine h (Interpretation.ext (List.ext_getElem? fun a ↦ ?_))
  by_cases ha : a < I.size
  · exact (status?_of_lt ha).trans (hno a _ (status?_of_lt ha)).symm
  · rw [List.getElem?_eq_none (Nat.le_of_not_lt ha),
      List.getElem?_eq_none (show J.size ≤ a by omega)]

/-- There is an interpretation that decides what a consistent condition says. -/
theorem exists_decides_iff (n : Nat) {p : Nat → Bool → Prop}
    (hp : ∀ a b c, p a b → p a c → b = c) :
    ∃ I : Interpretation, I.size = n ∧ ∀ a b, I.Decides a b ↔ a < n ∧ p a b := by
  classical
  -- each status is the one that the condition asks for, if it asks for one
  refine ⟨⟨(List.range n).map fun a ↦ if p a true then .satisfied
    else if p a false then .unsatisfied else .undecided⟩, by simp [size], fun a b ↦ ?_⟩
  rw [Decides, status?, List.getElem?_map]
  by_cases ha : a < n
  · rw [List.getElem?_range ha, Option.map_some, Option.some.injEq, and_iff_right ha]
    have hboth : ¬(p a true ∧ p a false) := fun h ↦ Bool.noConfusion (hp a _ _ h.1 h.2)
    cases b <;> by_cases ht : p a true <;> by_cases hf : p a false <;>
      simp_all [Status.ofBool]
  · rw [List.getElem?_eq_none (by simpa using ha)]
    simp [ha]

/-! ### The order -/

instance : PartialOrder Interpretation where
  le I J := I.size = J.size ∧ ∀ a b, I.Decides a b → J.Decides a b
  le_refl _ := ⟨rfl, fun _ _ h ↦ h⟩
  le_trans _ _ _ h h' := ⟨h.1.trans h'.1, fun a b hb ↦ h'.2 a b (h.2 a b hb)⟩
  le_antisymm _ _ h h' := ext_of_decides h.1 fun a b ↦ ⟨h.2 a b, h'.2 a b⟩

/-- Decisions are kept above. -/
theorem Decides.mono (h : I.Decides a b) (hle : I ≤ J) : J.Decides a b := hle.2 a b h

/-- A strictly larger interpretation decides an argument more. -/
theorem exists_decides_of_lt (h : I < J) :
    ∃ a b, J.Decides a b ∧ I.status? a = some .undecided := by
  by_contra hno
  refine h.not_ge ⟨h.le.1.symm, fun a b hb ↦ ?_⟩
  rcases decides_or_undecided (I := I) (a := a) (h.le.1 ▸ hb.lt_size) with ⟨c, hc⟩ | hu
  · rwa [hb.unique (hc.mono h.le)]
  · exact absurd ⟨a, b, hb, hu⟩ hno

/-- Strictly larger is what is larger and decides an argument more. -/
theorem lt_iff_le_and_decides :
    I < J ↔ I ≤ J ∧ ∃ a b, J.Decides a b ∧ I.status? a = some .undecided := by
  refine ⟨fun h ↦ ⟨h.le, exists_decides_of_lt h⟩, ?_⟩
  rintro ⟨hle, a, b, hb, hu⟩
  refine lt_of_le_of_ne hle ?_
  rintro rfl
  exact not_decides_of_undecided hu hb

/-- Interpretations of one size are comparable by `extends?`. -/
theorem extends?_iff (hsize : I.size = J.size) : I.extends? J ↔ J ≤ I := by
  unfold extends?
  rw [List.all_eq_true]
  constructor
  · intro h
    refine ⟨hsize.symm, fun a b hb ↦ ?_⟩
    have hJ := hb.lt_size
    have hI : a < I.size := hsize ▸ hJ
    have hmem : (I.statuses[a], J.statuses[a]) ∈ I.statuses.zip J.statuses :=
      List.mem_iff_getElem.2 ⟨a, by
        rw [List.length_zip]
        exact Nat.lt_min.2 ⟨hI, hJ⟩, List.getElem_zip⟩
    have hb' : J.statuses[a] = .ofBool b := Option.some.inj ((status?_of_lt hJ).symm.trans hb)
    have := h _ hmem
    simp only [hb', Bool.or_eq_true, decide_eq_true_eq, Status.ofBool_ne_undecided,
      false_or] at this
    rw [Decides, status?_of_lt hI, this]
  · rintro ⟨-, h⟩ ⟨s, t⟩ hmem
    obtain ⟨a, ha, hst⟩ := List.mem_iff_getElem.1 hmem
    rw [List.getElem_zip, Prod.mk.injEq] at hst
    obtain ⟨rfl, rfl⟩ := hst
    rw [List.length_zip, Nat.lt_min] at ha
    rcases Status.eq_ofBool_or_undecided J.statuses[a] with ⟨b, hb⟩ | hu
    · have hI := h a b (by rw [Decides, status?_of_lt ha.2, hb])
      have : I.statuses[a] = .ofBool b := Option.some.inj ((status?_of_lt ha.1).symm.trans hI)
      simp [hb, this]
    · simp [hu]

/-! ### Particular interpretations -/

@[simp]
theorem size_blank (n : Nat) : (blank n).size = n := by
  simp [blank, size]

@[simp]
theorem not_decides_blank : ¬(blank n).Decides a b := by
  intro h
  have hmem : Status.ofBool b ∈ List.replicate n Status.undecided := List.mem_of_getElem? h
  exact Status.ofBool_ne_undecided b (List.eq_of_mem_replicate hmem)

/-- The blank interpretation is the least one of its size. -/
theorem blank_le (h : I.size = n) : blank n ≤ I :=
  ⟨by rw [size_blank, h], fun _ _ hb ↦ absurd hb not_decides_blank⟩

@[simp]
theorem size_set (I : Interpretation) (a : Nat) (s : Status) : (I.set a s).size = I.size := by
  simp [set, size]

/-- Deciding one more argument. -/
theorem decides_set_ofBool {d : Nat} (ha : a < I.size) :
    (I.set a (.ofBool b)).Decides d c ↔ (d = a ∧ c = b) ∨ (d ≠ a ∧ I.Decides d c) := by
  unfold Decides status? set
  rw [List.getElem?_set]
  by_cases hd : a = d
  · subst hd
    rw [if_pos rfl, if_pos (show a < I.statuses.length from ha)]
    constructor
    · exact fun h ↦ .inl ⟨rfl, (Status.ofBool_injective (Option.some.inj h)).symm⟩
    · rintro (⟨-, rfl⟩ | ⟨h, -⟩)
      · rfl
      · exact absurd rfl h
  · rw [if_neg hd]
    exact ⟨fun h ↦ .inr ⟨Ne.symm hd, h⟩, fun h ↦ h.elim (fun h' ↦ absurd h'.1.symm hd) And.right⟩

theorem decides_set_self (ha : a < I.size) : (I.set a (.ofBool b)).Decides a b :=
  (decides_set_ofBool ha).2 (.inl ⟨rfl, rfl⟩)

theorem status?_set_of_ne {d : Nat} {s : Status} (hd : d ≠ a) :
    (I.set a s).status? d = I.status? d :=
  List.getElem?_set_ne hd.symm

/-- Deciding an undecided argument takes nothing back. -/
theorem le_set_ofBool (hu : I.status? a = some .undecided) (b : Bool) :
    I ≤ I.set a (.ofBool b) := by
  refine ⟨(size_set ..).symm, fun d c hd ↦ ?_⟩
  refine (decides_set_ofBool (lt_size_of_status? hu)).2 (.inr ⟨?_, hd⟩)
  rintro rfl
  exact not_decides_of_undecided hu hd

/-- And it leads strictly above. -/
theorem lt_set_ofBool (hu : I.status? a = some .undecided) (b : Bool) :
    I < I.set a (.ofBool b) := by
  refine lt_of_le_of_ne (le_set_ofBool hu b) fun heq ↦ ?_
  have hab : (I.set a (.ofBool b)).Decides a b := decides_set_self (lt_size_of_status? hu)
  rw [← heq] at hab
  exact not_decides_of_undecided hu hab

/-- The interpretations above one more decision are those above that give the argument its value. -/
theorem set_le_iff (hu : I.status? a = some .undecided) :
    I.set a (.ofBool b) ≤ J ↔ I ≤ J ∧ J.Decides a b := by
  have ha := lt_size_of_status? hu
  constructor
  · intro hle
    exact ⟨(le_set_ofBool hu b).trans hle, (decides_set_self ha).mono hle⟩
  · rintro ⟨hle, hab⟩
    refine ⟨(size_set ..).trans hle.1, fun d c hd ↦ ?_⟩
    rcases (decides_set_ofBool ha).1 hd with ⟨rfl, rfl⟩ | ⟨-, hd⟩
    · exact hab
    · exact hd.mono hle

/-- The undecided arguments, as they are listed. -/
theorem mem_undecided : a ∈ I.undecided ↔ I.status? a = some .undecided := by
  simp only [undecided, argumentsWith, List.mem_filter, List.mem_range, decide_eq_true_eq]
  exact ⟨And.right, fun h ↦ ⟨lt_size_of_status? h, h⟩⟩

/-- An entry is an argument with its status. -/
theorem mem_entries {s : Status} : (a, s) ∈ I.entries ↔ I.status? a = some s := by
  simp only [entries, List.mem_map, Prod.mk.injEq, Prod.exists, List.mem_zipIdx_iff_getElem?,
    status?]
  constructor
  · rintro ⟨s', a', h, rfl, rfl⟩
    exact h
  · intro h
    exact ⟨s, a, h, rfl, rfl⟩

/-- The decided arguments are listed with their values. -/
theorem mem_decided : (a, b) ∈ I.decided ↔ I.Decides a b := by
  simp only [decided, List.mem_filterMap, Prod.exists, Option.map_eq_some_iff, Prod.mk.injEq]
  constructor
  · rintro ⟨a', s, hmem, b', hb, rfl, rfl⟩
    obtain rfl := Status.value?_eq_some_iff.1 hb
    exact mem_entries.1 hmem
  · intro h
    exact ⟨a, .ofBool b, mem_entries.2 h, b, Status.value?_eq_some_iff.2 rfl, rfl, rfl⟩

/-- Two-valued is what gives every argument a value. -/
theorem isTwoValued_iff : I.isTwoValued ↔ ∀ a < I.size, ∃ b, I.Decides a b := by
  unfold isTwoValued
  rw [List.all_eq_true]
  constructor
  · intro h a ha
    refine (decides_or_undecided ha).resolve_right fun hu ↦ ?_
    have := h _ (List.mem_of_getElem? hu)
    simp at this
  · intro h s hs
    obtain ⟨a, ha, rfl⟩ := List.mem_iff_getElem.1 hs
    obtain ⟨b, hb⟩ := h a ha
    have : I.statuses[a] = .ofBool b := Option.some.inj ((status?_of_lt ha).symm.trans hb)
    simp [this, Status.ofBool_ne_undecided]

/-- Nothing is strictly more informative than a two-valued interpretation. -/
theorem eq_of_le_of_isTwoValued (h : I ≤ J) (hI : I.isTwoValued) : I = J := by
  refine le_antisymm h ⟨h.1.symm, fun a b hb ↦ ?_⟩
  obtain ⟨c, hc⟩ := isTwoValued_iff.1 hI a (h.1 ▸ hb.lt_size)
  rwa [hb.unique (hc.mono h)]

/-! ### Completions -/

/-- A valuation of the arguments completes an interpretation if it gives the decided arguments their
values. -/
def CompletedBy (I : Interpretation) (v : Nat → Bool) : Prop := ∀ a b, I.Decides a b → v a = b

/-- A completion completes what is below, too. -/
theorem CompletedBy.mono {v : Nat → Bool} (h : J.CompletedBy v) (hle : I ≤ J) : I.CompletedBy v :=
  fun a b hb ↦ h a b (hb.mono hle)

/-- What is satisfied, and all others false. -/
theorem completedBy_isSatisfied (I : Interpretation) : I.CompletedBy I.isSatisfied := by
  intro a b hab
  cases b with
  | true => exact isSatisfied_iff.2 hab
  | false =>
    refine Bool.eq_false_iff.2 fun hs ↦ ?_
    exact Bool.noConfusion ((isSatisfied_iff.1 hs).unique hab)

/-- The values of the decided arguments, and given values for all others. -/
def withDefault (I : Interpretation) (v : Nat → Bool) (a : Nat) : Bool :=
  if I.Decides a true then true else if I.Decides a false then false else v a

theorem withDefault_of_decides {v : Nat → Bool} (h : I.Decides a b) : I.withDefault v a = b := by
  unfold withDefault
  cases b with
  | true => rw [if_pos h]
  | false => rw [if_neg fun h' ↦ Bool.noConfusion (h.unique h'), if_pos h]

/-- The given value is taken where there is no decision. -/
theorem withDefault_of_not_decides {v : Nat → Bool} (h : ∀ b, ¬I.Decides a b) :
    I.withDefault v a = v a := by
  rw [withDefault, if_neg (h true), if_neg (h false)]

/-- Nothing is changed where the given values are those of the decided arguments. -/
theorem withDefault_eq {v : Nat → Bool} (h : ∀ b, I.Decides a b → v a = b) :
    I.withDefault v a = v a := by
  by_cases hd : ∃ b, I.Decides a b
  · obtain ⟨b, hb⟩ := hd
    rw [withDefault_of_decides hb, h b hb]
  · exact withDefault_of_not_decides fun b hb ↦ hd ⟨b, hb⟩

/-- So there is a completion for whatever values are given. -/
theorem completedBy_withDefault (I : Interpretation) (v : Nat → Bool) :
    I.CompletedBy (I.withDefault v) :=
  fun _ _ ↦ withDefault_of_decides

/-- A completion for each argument, chosen by the value of the argument if it is decided. -/
theorem exists_completions {p : Nat → Bool → (Nat → Bool) → Prop}
    (h : ∀ a b, I.Decides a b → ∃ v, I.CompletedBy v ∧ p a b v) :
    ∃ L : Nat → Nat → Bool, (∀ a, I.CompletedBy (L a)) ∧ ∀ a b, I.Decides a b → p a b (L a) := by
  have hchoice : ∀ a, ∃ v, I.CompletedBy v ∧ ∀ b, I.Decides a b → p a b v := by
    intro a
    by_cases hd : ∃ b, I.Decides a b
    · obtain ⟨b, hb⟩ := hd
      obtain ⟨v, hv, hp⟩ := h a b hb
      exact ⟨v, hv, fun c hc ↦ hb.unique hc ▸ hp⟩
    · exact ⟨_, I.completedBy_withDefault fun _ ↦ false, fun b hb ↦ absurd ⟨b, hb⟩ hd⟩
  choose L hL using hchoice
  exact ⟨L, fun a ↦ (hL a).1, fun a ↦ (hL a).2⟩

/-! ### Counting -/

/-- All interpretations of a size are listed. -/
theorem mem_allOfSize : I ∈ allOfSize n ↔ I.size = n := by
  have hlists : ∀ (n : Nat) (ss : List Status), ss ∈ allOfSize.lists n ↔ ss.length = n := by
    intro n
    induction n with
    | zero => simp [allOfSize.lists]
    | succ n ih =>
      intro ss
      cases ss with
      | nil => simp [allOfSize.lists]
      | cons s ss =>
        cases s <;> simp [allOfSize.lists, ih]
  obtain ⟨ss⟩ := I
  simp [allOfSize, hlists, size]

/-- Each argument has one of three statuses. -/
theorem length_allOfSize (n : Nat) : (allOfSize n).length = 3 ^ n := by
  rw [allOfSize, List.length_map]
  induction n with
  | zero => rfl
  | succ n ih =>
    simp only [allOfSize.lists, List.flatMap_cons, List.flatMap_nil, List.append_nil,
      List.length_append, List.length_map, ih]
    omega

/-- So there are finitely many. -/
theorem finite_size (n : Nat) : {I : Interpretation | I.size = n}.Finite :=
  (List.finite_toSet (allOfSize n)).subset fun _ h ↦ mem_allOfSize.2 h

/-- There are at most `3 ^ n` interpretations of `n` arguments. -/
theorem ncard_le {s : Set Interpretation} (h : ∀ I ∈ s, I.size = n) : s.ncard ≤ 3 ^ n := by
  classical
  have hsub : s ⊆ ((allOfSize n).toFinset : Set Interpretation) := fun I hI ↦
    List.mem_toFinset.2 (mem_allOfSize.2 (h I hI))
  calc s.ncard
      ≤ ((allOfSize n).toFinset : Set Interpretation).ncard :=
        Set.ncard_le_ncard hsub (Finset.finite_toSet _)
    _ = (allOfSize n).toFinset.card := Set.ncard_coe_finset _
    _ ≤ (allOfSize n).length := List.toFinset_card_le _
    _ = 3 ^ n := length_allOfSize n

end Interpretation

end Dialectical
