import Dialectical.Encoding.Refinement
import Dialectical.Proofs.Information
import Dialectical.Proofs.Meaning

/-!
# What clauses over argument atoms say

`Atoms.Encodes v I` says that the argument atoms of the valuation `v` stand for the interpretation
`I`. A valuation stands for an interpretation if and only if no argument has both of its atoms, and
the interpretation is read off the true atoms (`Encodes.interpretation_eq`).

The clauses that place an interpretation relative to a given one are statements about the order of
information: `differs` says `≠`, `exceeds` says `≰`, `extending` says `<` and `fixing` says `≤`
(`places_and_reads_back`).
-/

namespace Dialectical

open Clause

namespace Atoms

variable {A : Atoms} {v w : Variable → Bool} {I J : Interpretation} {a : Nat} {b : Bool}

/-! ### Encodings of interpretations -/

/-- The atom that gives an argument a truth value. -/
def atom (A : Atoms) (a : Nat) (b : Bool) : Variable :=
  if b then A.satisfied a else A.unsatisfied a

@[simp]
theorem atom_true (A : Atoms) (a : Nat) : A.atom a true = A.satisfied a := rfl

@[simp]
theorem atom_false (A : Atoms) (a : Nat) : A.atom a false = A.unsatisfied a := rfl

/-- The atoms of the arguments are the first variables. -/
theorem atom_lt (ha : a < A.size) : A.atom a b < 2 * A.size := by
  cases b
  · show 2 * a + 1 < 2 * A.size
    omega
  · show 2 * a < 2 * A.size
    omega

/-- An atom is read back as the argument and the value it stands for. -/
theorem argument?_eq_some_iff {x : Variable} :
    A.argument? x = some (a, b) ↔ a < A.size ∧ x = A.atom a b := by
  -- the atoms of `a` are `2 * a` and `2 * a + 1`
  have hsplit : ∀ n : Nat, (n < 2 * A.size ∧ n / 2 = a ∧ (n % 2 == 0) = b) ↔
      a < A.size ∧ n = 2 * a + if b then 0 else 1 := by
    intro n
    cases b <;> simp only [beq_iff_eq, beq_eq_false_iff_ne, if_true, Bool.false_eq_true,
      if_false] <;> omega
  have hatom : A.atom a b = 2 * a + if b then 0 else 1 := by cases b <;> rfl
  rw [hatom, ← hsplit, argument?, Option.ite_none_right_eq_some, Option.some.injEq, Prod.mk.injEq]

/-- The list of atoms has those of the arguments, and no others. -/
theorem mem_ofArguments {x : Variable} :
    x ∈ A.ofArguments ↔ ∃ a, a < A.size ∧ ∃ b, x = A.atom a b := by
  simp only [ofArguments, List.mem_flatMap, List.mem_range, List.mem_cons, List.not_mem_nil,
    or_false, Bool.exists_bool, atom_true, atom_false]
  exact exists_congr fun a ↦ and_congr_right fun _ ↦ or_comm

/-- Whatever is read, there is one status per argument. -/
theorem size_interpretation (A : Atoms) (xs : List Variable) :
    (A.interpretation xs).size = A.size := by
  refine List.foldlRecOn (motive := fun I : Interpretation ↦ I.size = A.size) xs _
    (Interpretation.size_blank A.size) fun I hI x _ ↦ ?_
  split
  · exact (Interpretation.size_set ..).trans hI
  · exact hI

/-- The argument atoms stand for the interpretation. -/
structure Encodes (A : Atoms) (v : Variable → Bool) (I : Interpretation) : Prop where
  size_eq : I.size = A.size
  decides_iff : ∀ a b, a < A.size → (v (A.atom a b) = true ↔ I.Decides a b)

/-- A valuation encodes at most one interpretation. -/
theorem Encodes.unique (h : A.Encodes v I) (h' : A.Encodes v J) : I = J := by
  refine Interpretation.ext_of_decides (h.size_eq.trans h'.size_eq.symm) fun a b ↦ ?_
  by_cases ha : a < A.size
  · rw [← h.decides_iff a b ha, ← h'.decides_iff a b ha]
  · exact iff_of_false (fun hd ↦ ha (h.size_eq ▸ hd.lt_size))
      fun hd ↦ ha (h'.size_eq ▸ hd.lt_size)

/-- A valuation stands for an interpretation unless an argument has both atoms. -/
theorem exists_encodes (h : ∀ a < A.size, ¬(v (A.satisfied a) ∧ v (A.unsatisfied a))) :
    ∃ I, A.Encodes v I := by
  have hp : ∀ a b c, a < A.size ∧ v (A.atom a b) → a < A.size ∧ v (A.atom a c) → b = c := by
    rintro a b c ⟨ha, hb⟩ ⟨-, hc⟩
    have := h a ha
    cases b <;> cases c <;> simp_all
  obtain ⟨I, hsize, hI⟩ := Interpretation.exists_decides_iff A.size hp
  refine ⟨I, hsize, fun a b ha ↦ ?_⟩
  rw [hI, and_iff_right ha, and_iff_right ha]

/-- Reading atoms one by one decides what they say, as long as they agree with an interpretation. -/
theorem decides_foldl {xs : List Variable} {K : Interpretation} (hK : K ≤ I)
    (hxs : ∀ x ∈ xs, ∀ a b, A.argument? x = some (a, b) → I.Decides a b) (d : Nat) (c : Bool) :
    (xs.foldl (fun I x ↦ match A.argument? x with
      | some (a, b) => I.set a (.ofBool b)
      | none => I) K).Decides d c ↔ K.Decides d c ∨ ∃ x ∈ xs, A.argument? x = some (d, c) := by
  induction xs generalizing K with
  | nil => simp
  | cons x xs ih =>
    have hxs' : ∀ y ∈ xs, ∀ a b, A.argument? y = some (a, b) → I.Decides a b :=
      fun y hy ↦ hxs y (by simp [hy])
    rw [List.foldl_cons]
    rcases hx : A.argument? x with _ | ⟨a, b⟩
    · simpa [hx] using ih hK hxs'
    · have hI : I.Decides a b := hxs x (by simp) a b hx
      -- the argument has the value already, or none
      have hset : ∀ d c, (K.set a (.ofBool b)).Decides d c ↔
          K.Decides d c ∨ d = a ∧ c = b := by
        intro d c
        rw [Interpretation.decides_set_ofBool (hK.1 ▸ hI.lt_size)]
        by_cases hd : d = a
        · subst hd
          simpa using fun hc : K.Decides d c ↦ (hc.mono hK).unique hI
        · simp [hd]
      have hle : K.set a (.ofBool b) ≤ I := by
        refine ⟨(Interpretation.size_set ..).trans hK.1, fun d c hd ↦ ?_⟩
        rcases (hset d c).1 hd with hd | ⟨rfl, rfl⟩
        · exact hd.mono hK
        · exact hI
      have heq : d = a ∧ c = b ↔ A.argument? x = some (d, c) := by
        rw [hx, Option.some.injEq, Prod.mk.injEq, eq_comm, eq_comm (a := c)]
      rw [ih hle hxs', hset, List.exists_mem_cons_iff, heq, or_assoc]

/-- **Decoding.** If the true argument atoms are read, in any order and among other variables, they
are read as the interpretation that they stand for. -/
theorem Encodes.interpretation_eq_of_mem {xs : List Variable} (h : A.Encodes v I)
    (hxs : ∀ x ∈ A.ofArguments, x ∈ xs ↔ v x = true) : A.interpretation xs = I := by
  have hmem : ∀ a b, (∃ x ∈ xs, A.argument? x = some (a, b)) ↔ I.Decides a b := by
    intro a b
    constructor
    · rintro ⟨x, hx, hxa⟩
      obtain ⟨ha, rfl⟩ := argument?_eq_some_iff.1 hxa
      have hatom : A.atom a b ∈ A.ofArguments := mem_ofArguments.2 ⟨a, ha, b, rfl⟩
      exact (h.decides_iff a b ha).1 ((hxs _ hatom).1 hx)
    · intro hab
      have ha : a < A.size := h.size_eq ▸ hab.lt_size
      have hatom : A.atom a b ∈ A.ofArguments := mem_ofArguments.2 ⟨a, ha, b, rfl⟩
      exact ⟨A.atom a b, (hxs _ hatom).2 ((h.decides_iff a b ha).2 hab),
        argument?_eq_some_iff.2 ⟨ha, rfl⟩⟩
  have hread : ∀ x ∈ xs, ∀ a b, A.argument? x = some (a, b) → I.Decides a b :=
    fun x hx a b hxa ↦ (hmem a b).1 ⟨x, hx, hxa⟩
  have hdec := decides_foldl (Interpretation.blank_le h.size_eq) hread
  refine Interpretation.ext_of_decides ((size_interpretation ..).trans h.size_eq.symm)
    fun a b ↦ (hdec a b).trans ?_
  rw [hmem]
  exact or_iff_right Interpretation.not_decides_blank

/-- **Reading back** gives the interpretation that is encoded. -/
theorem Encodes.interpretation_eq (h : A.Encodes v I) :
    A.interpretation (A.ofArguments.filter v) = I :=
  h.interpretation_eq_of_mem fun x hx ↦ by rw [List.mem_filter, and_iff_right hx]

/-- The argument atoms stand for the interpretation that they are the statuses of. -/
theorem encodes_of_statuses (hJ : J.size = A.size)
    (hv : ∀ a < A.size,
      v (A.satisfied a) = J.isSatisfied a ∧ v (A.unsatisfied a) = J.isUnsatisfied a) :
    A.Encodes v J := by
  refine ⟨hJ, fun a b ha ↦ ?_⟩
  obtain ⟨ht, hf⟩ := hv a ha
  cases b with
  | true => rw [atom_true, ht, Interpretation.isSatisfied_iff]
  | false => rw [atom_false, hf, Interpretation.isUnsatisfied_iff]

/-! ### Refinements -/

/-- An atom is true iff its argument is decided that way. -/
theorem Encodes.holds_pos (h : A.Encodes v J) (ha : a < A.size) (b : Bool) :
    (A.atom a b).pos.holds v ↔ J.Decides a b := by
  simpa [Literal.holds] using h.decides_iff a b ha

/-- And false iff it is not. -/
theorem Encodes.holds_neg (h : A.Encodes v J) (ha : a < A.size) (b : Bool) :
    (A.atom a b).neg.holds v ↔ ¬J.Decides a b := by
  rw [← h.decides_iff a b ha]
  simp [Literal.holds]

/-- One of the two literals holds iff the argument is decided. -/
theorem Encodes.exists_mem_decided (h : A.Encodes v J) (ha : a < A.size) :
    (∃ l ∈ A.decided a, l.holds v) ↔ ∃ b, J.Decides a b := by
  simp only [decided, List.mem_cons, List.not_mem_nil, or_false, exists_eq_or_imp,
    exists_eq_left, Bool.exists_bool, ← h.holds_pos ha, atom_true, atom_false]
  exact or_comm

/-- A clause put together from parts holds iff one of the parts does. -/
theorem holds_flatMap {β : Type} {f : β → List Literal} {xs : List β} :
    Clause.holds v (xs.flatMap f) ↔ ∃ x ∈ xs, ∃ l ∈ f x, l.holds v := by
  simp only [holds_iff, List.mem_flatMap]
  constructor
  · rintro ⟨l, ⟨x, hx, hl⟩, hv⟩
    exact ⟨x, hx, l, hl, hv⟩
  · rintro ⟨x, hx, l, hl, hv⟩
    exact ⟨l, ⟨x, hx, hl⟩, hv⟩

/-- A clause with some literals for each entry of an interpretation. -/
theorem holds_flatMap_entries {f : Nat × Status → List Literal} {p : Nat → Status → Prop}
    (hf : ∀ a s, I.status? a = some s → ((∃ l ∈ f (a, s), l.holds v) ↔ p a s)) :
    Clause.holds v (I.entries.flatMap f) ↔ ∃ a s, I.status? a = some s ∧ p a s := by
  rw [holds_flatMap]
  simp only [Prod.exists, Interpretation.mem_entries]
  exact exists_congr fun a ↦ exists_congr fun s ↦ and_congr_right (hf a s)

/-- A clause for each entry of an interpretation. -/
theorem allHold_map_entries {f : Nat × Status → Clause} {p : Nat → Status → Prop}
    (hf : ∀ a s, I.status? a = some s → (Clause.holds v (f (a, s)) ↔ p a s)) :
    AllHold (I.entries.map f) v ↔ ∀ a s, I.status? a = some s → p a s := by
  simp only [AllHold, List.forall_mem_map, Prod.forall, Interpretation.mem_entries]
  exact forall_congr' fun a ↦ forall_congr' fun s ↦ forall_congr' (hf a s)

/-- **Another interpretation.** The clause excludes `I`, and only `I`. -/
theorem Encodes.holds_differs (h : A.Encodes v J) (hI : I.size = A.size) :
    Clause.holds v (A.differs I) ↔ J ≠ I := by
  rw [differs, holds_flatMap_entries (p := fun a s ↦ J.status? a ≠ some s)]
  · constructor
    · rintro ⟨a, s, hs, hne⟩ rfl
      exact hne hs
    · exact fun hne ↦ Interpretation.exists_status?_ne (hI.trans h.size_eq.symm) hne.symm
  · intro a s hs
    have ha : a < A.size := hI ▸ Interpretation.lt_size_of_status? hs
    cases s with
    | satisfied => simpa [Interpretation.Decides, Status.ofBool] using h.holds_neg ha true
    | unsatisfied => simpa [Interpretation.Decides, Status.ofBool] using h.holds_neg ha false
    | undecided =>
      refine (h.exists_mem_decided ha).trans ⟨?_, fun hu ↦ ?_⟩
      · rintro ⟨b, hb⟩ hu
        exact Interpretation.not_decides_of_undecided hu hb
      · exact (Interpretation.decides_or_undecided (h.size_eq ▸ ha)).resolve_right hu

/-- **Not below.** The clause excludes `I` and all that decides less. -/
theorem Encodes.holds_exceeds (h : A.Encodes v J) (hI : I.size = A.size) :
    Clause.holds v (A.exceeds I) ↔ ¬J ≤ I := by
  rw [exceeds, holds_flatMap_entries (p := fun a s ↦ ∃ b, J.Decides a b ∧ s ≠ .ofBool b)]
  · constructor
    · rintro ⟨a, s, hs, b, hb, hne⟩ hle
      exact hne (Option.some.inj (hs.symm.trans (hb.mono hle)))
    · intro hle
      by_contra hno
      push Not at hno
      refine hle ⟨h.size_eq.trans hI.symm, fun a b hb ↦ ?_⟩
      have hs := Interpretation.status?_of_lt (I := I) (hI ▸ h.size_eq ▸ hb.lt_size)
      rw [Interpretation.Decides, hs, hno a _ hs b hb]
  · intro a s hs
    have ha : a < A.size := hI ▸ Interpretation.lt_size_of_status? hs
    cases s with
    | satisfied => simpa [Status.ofBool] using h.holds_pos ha false
    | unsatisfied => simpa [Status.ofBool] using h.holds_pos ha true
    | undecided =>
      refine (h.exists_mem_decided ha).trans (exists_congr fun b ↦ (and_iff_left ?_).symm)
      exact (Status.ofBool_ne_undecided b).symm

/-- **Above.** The literals hold iff everything that `I` decides is decided the same way. -/
theorem Encodes.holds_fixing (h : A.Encodes v J) (hI : I.size = A.size) :
    (∀ l ∈ A.fixing I, l.holds v) ↔ I ≤ J := by
  have hmem : ∀ l, l ∈ A.fixing I ↔ ∃ a b, I.Decides a b ∧ (A.atom a b).pos = l := by
    intro l
    simp only [fixing, List.mem_filterMap, Prod.exists, Interpretation.mem_entries]
    constructor
    · rintro ⟨a, s | s | s, hs, hl⟩
      · exact ⟨a, true, hs, Option.some.inj hl⟩
      · exact ⟨a, false, hs, Option.some.inj hl⟩
      · simp at hl
    · rintro ⟨a, b, hab, rfl⟩
      cases b with
      | true => exact ⟨a, .satisfied, hab, rfl⟩
      | false => exact ⟨a, .unsatisfied, hab, rfl⟩
  constructor
  · refine fun hall ↦ ⟨hI.trans h.size_eq.symm, fun a b hab ↦ ?_⟩
    exact (h.holds_pos (hI ▸ hab.lt_size) b).1 (hall _ ((hmem _).2 ⟨a, b, hab, rfl⟩))
  · intro hle l hl
    obtain ⟨a, b, hab, rfl⟩ := (hmem l).1 hl
    exact (h.holds_pos (hI ▸ hab.lt_size) b).2 (hab.mono hle)

/-- The clause by which an undecided argument becomes decided. -/
theorem Encodes.holds_undecided (h : A.Encodes v J) (hI : I.size = A.size) :
    Clause.holds v (I.undecided.flatMap A.decided) ↔
      ∃ a b, J.Decides a b ∧ I.status? a = some .undecided := by
  simp only [holds_flatMap, Interpretation.mem_undecided]
  refine exists_congr fun a ↦ ⟨?_, ?_⟩
  · rintro ⟨hu, hl⟩
    obtain ⟨b, hb⟩ := (h.exists_mem_decided (hI ▸ Interpretation.lt_size_of_status? hu)).1 hl
    exact ⟨b, hb, hu⟩
  · rintro ⟨b, hb, hu⟩
    exact ⟨hu, (h.exists_mem_decided (h.size_eq ▸ hb.lt_size)).2 ⟨b, hb⟩⟩

/-- **Strictly above.** Fixing `I`, and one more argument that is decided. -/
theorem Encodes.allHold_extending (h : A.Encodes v J) (hI : I.size = A.size) :
    AllHold (A.extending I) v ↔ I < J := by
  -- the last clause makes the larger interpretation a different one
  rw [extending, allHold_append, allHold_singleton, h.holds_undecided hI,
    Interpretation.lt_iff_le_and_decides,
    allHold_map_entries (p := fun a s ↦ ∀ b, s = .ofBool b → J.Decides a b)]
  · refine and_congr_left fun _ ↦ ⟨fun hall ↦ ?_, fun hle a s hs b hb ↦ ?_⟩
    · exact ⟨hI.trans h.size_eq.symm, fun d c hd ↦ hall d _ hd c rfl⟩
    · have hab : I.Decides a b := hs.trans (congrArg some hb)
      exact hab.mono hle
  · intro a s hs
    have ha : a < A.size := hI ▸ Interpretation.lt_size_of_status? hs
    cases s with
    | satisfied => simpa [Status.ofBool] using h.holds_pos ha true
    | unsatisfied => simpa [Status.ofBool] using h.holds_pos ha false
    | undecided =>
      -- no argument has both atoms, so this clause says nothing
      refine iff_of_true (holds_pair.2 ?_) fun b hb ↦ absurd hb.symm (Status.ofBool_ne_undecided b)
      by_contra hno
      push Not at hno
      have ht := not_not.1 (mt (h.holds_neg ha true).2 hno.1)
      exact Bool.noConfusion (ht.unique (not_not.1 (mt (h.holds_neg ha false).2 hno.2)))

/-! ### Clauses over argument atoms -/

/-- The clauses are over the argument atoms, and say of the interpretation that these stand for that
it is in `B`. -/
structure Selects (A : Atoms) (cs : List Clause) (B : Set Interpretation) : Prop where
  span_le : ∀ c ∈ cs, span c ≤ 2 * A.size
  allHold_iff : ∀ v I, A.Encodes v I → (AllHold cs v ↔ I ∈ B)

theorem selects_nil (A : Atoms) : A.Selects [] Set.univ :=
  ⟨fun _ hc ↦ absurd hc List.not_mem_nil, fun _ _ _ ↦ iff_of_true allHold_nil trivial⟩

/-- The literals of a clause that is written entry by entry are over the argument atoms. -/
theorem span_flatMap_entries_le {f : Nat × Status → List Literal} (hI : I.size = A.size)
    (hf : ∀ a s, ∀ l ∈ f (a, s), ∃ b, l.var = A.atom a b) :
    span (I.entries.flatMap f) ≤ 2 * A.size := by
  refine span_le_iff.2 fun l hl ↦ ?_
  obtain ⟨⟨a, s⟩, has, hl⟩ := List.mem_flatMap.1 hl
  obtain ⟨b, hb⟩ := hf a s l hl
  rw [hb]
  exact atom_lt (hI ▸ Interpretation.lt_size_of_status? (Interpretation.mem_entries.1 has))

/-- The literals that say that an argument is decided are about its atoms. -/
theorem var_of_mem_decided {l : Literal} (hl : l ∈ A.decided a) : ∃ b, l.var = A.atom a b := by
  simp only [decided, List.mem_cons, List.not_mem_nil, or_false] at hl
  rcases hl with rfl | rfl
  · exact ⟨true, rfl⟩
  · exact ⟨false, rfl⟩

/-- Excluding an interpretation selects the others. -/
theorem selects_differs (hI : I.size = A.size) : A.Selects [A.differs I] {J | J ≠ I} := by
  refine ⟨fun c hc ↦ ?_, fun v J h ↦ allHold_singleton.trans (h.holds_differs hI)⟩
  rw [List.mem_singleton.1 hc]
  refine span_flatMap_entries_le hI fun a s l hl ↦ ?_
  cases s with
  | satisfied => exact ⟨true, by rw [List.mem_singleton.1 hl, atom_true]⟩
  | unsatisfied => exact ⟨false, by rw [List.mem_singleton.1 hl, atom_false]⟩
  | undecided => exact var_of_mem_decided hl

/-- Excluding what is below selects the rest. -/
theorem selects_exceeds (hI : I.size = A.size) : A.Selects [A.exceeds I] {J | ¬J ≤ I} := by
  refine ⟨fun c hc ↦ ?_, fun v J h ↦ allHold_singleton.trans (h.holds_exceeds hI)⟩
  rw [List.mem_singleton.1 hc]
  refine span_flatMap_entries_le hI fun a s l hl ↦ ?_
  cases s with
  | satisfied => exact ⟨false, by rw [List.mem_singleton.1 hl, atom_false]⟩
  | unsatisfied => exact ⟨true, by rw [List.mem_singleton.1 hl, atom_true]⟩
  | undecided => exact var_of_mem_decided hl

/-- The clauses of a strict extension select the strict extensions. -/
theorem selects_extending (hI : I.size = A.size) : A.Selects (A.extending I) {J | I < J} := by
  refine ⟨fun c hc ↦ span_le_iff.2 fun l hl ↦ ?_, fun v J h ↦ h.allHold_extending hI⟩
  have hvar : ∃ a, a < I.size ∧ ∃ b, l.var = A.atom a b := by
    rcases List.mem_append.1 hc with hc | hc
    · obtain ⟨⟨a, s⟩, has, rfl⟩ := List.mem_map.1 hc
      refine ⟨a, Interpretation.lt_size_of_status? (Interpretation.mem_entries.1 has), ?_⟩
      cases s with
      | satisfied => exact ⟨true, by rw [List.mem_singleton.1 hl, atom_true]⟩
      | unsatisfied => exact ⟨false, by rw [List.mem_singleton.1 hl, atom_false]⟩
      | undecided =>
        simp only [List.mem_cons, List.not_mem_nil, or_false] at hl
        rcases hl with rfl | rfl
        · exact ⟨true, rfl⟩
        · exact ⟨false, rfl⟩
    · rw [List.mem_singleton.1 hc] at hl
      obtain ⟨a, ha, hl⟩ := List.mem_flatMap.1 hl
      exact ⟨a, Interpretation.lt_size_of_status? (Interpretation.mem_undecided.1 ha),
        var_of_mem_decided hl⟩
  obtain ⟨a, ha, b, hb⟩ := hvar
  rw [hb]
  exact atom_lt (hI ▸ ha)

/-- And the unit clauses of a prefix select what extends it. -/
theorem selects_fixing (hI : I.size = A.size) :
    A.Selects ((A.fixing I).map ([·])) {J | I ≤ J} := by
  constructor
  · intro c hc
    obtain ⟨l, hl, rfl⟩ := List.mem_map.1 hc
    refine span_le_iff.2 fun l' hl' ↦ ?_
    rw [List.mem_singleton.1 hl']
    obtain ⟨⟨a, s⟩, has, hs⟩ := List.mem_filterMap.1 hl
    have ha : a < A.size :=
      hI ▸ Interpretation.lt_size_of_status? (Interpretation.mem_entries.1 has)
    cases s with
    | satisfied => exact Option.some.inj hs ▸ atom_lt (b := true) ha
    | unsatisfied => exact Option.some.inj hs ▸ atom_lt (b := false) ha
    | undecided => simp at hs
  · intro v J h
    rw [Set.mem_ofPred_eq, ← h.holds_fixing hI]
    simp only [AllHold, List.forall_mem_map, holds_singleton]

/-- The clauses that decide every argument. -/
theorem selects_decided (A : Atoms) :
    A.Selects ((List.range A.size).map A.decided) {I | I.isTwoValued} := by
  constructor
  · intro c hc
    obtain ⟨a, ha, rfl⟩ := List.mem_map.1 hc
    refine span_le_iff.2 fun l hl ↦ ?_
    obtain ⟨b, hb⟩ := var_of_mem_decided hl
    rw [hb]
    exact atom_lt (List.mem_range.1 ha)
  · intro v I h
    rw [Set.mem_ofPred_eq, Interpretation.isTwoValued_iff, h.size_eq]
    simp only [AllHold, List.forall_mem_map, List.mem_range, holds_iff]
    exact forall₂_congr fun a ha ↦ h.exists_mem_decided ha

/-! ### The order of information, told by clauses -/

/-- **Clauses place an interpretation relative to a given one.** Whatever is true beside the
argument atoms: of the interpretation `J` that these stand for, the clauses say that it is not `I`,
that `I` does not extend it, that it extends `I` and is not `I`, and that it extends `I`. Read back,
in any order and among other variables, the true argument atoms are `J` again. -/
theorem places_and_reads_back (A : Atoms) (I J : Interpretation) (hI : I.size = A.size)
    (hJ : J.size = A.size) (v : Variable → Bool)
    (hv : ∀ a < A.size,
      v (A.satisfied a) = J.isSatisfied a ∧ v (A.unsatisfied a) = J.isUnsatisfied a) :
    (Clause.holds v (A.differs I) ↔ J ≠ I) ∧
    (Clause.holds v (A.exceeds I) ↔ ¬I.extends? J) ∧
    (AllHold (A.extending I) v ↔ J.extends? I ∧ J ≠ I) ∧
    (AllHold ((A.fixing I).map ([·])) v ↔ J.extends? I) ∧
    ((∀ l ∈ A.fixing I, l.holds v) ↔ J.extends? I) ∧
    ∀ xs : List Variable, (∀ x ∈ A.ofArguments, x ∈ xs ↔ v x = true) → A.interpretation xs = J := by
  have h : A.Encodes v J := encodes_of_statuses hJ hv
  have hle : J.extends? I ↔ I ≤ J := Interpretation.extends?_iff (hJ.trans hI.symm)
  have hge : I.extends? J ↔ J ≤ I := Interpretation.extends?_iff (hI.trans hJ.symm)
  rw [hle, hge]
  refine ⟨h.holds_differs hI, h.holds_exceeds hI, ?_, (selects_fixing hI).allHold_iff v J h,
    h.holds_fixing hI, fun xs ↦ h.interpretation_eq_of_mem⟩
  rw [h.allHold_extending hI, lt_iff_le_and_ne, ne_comm]

/-- The case of three arguments and a link. The first argument is satisfied in both interpretations,
and the second one is unsatisfied in the larger one; the atom of the link is read, too. -/
theorem places_and_reads_back_link :
    let A : Atoms := ⟨3, [⟨0, 1⟩]⟩
    let I : Interpretation := ⟨[.satisfied, .undecided, .undecided]⟩
    let J : Interpretation := ⟨[.satisfied, .unsatisfied, .undecided]⟩
    let v : Variable → Bool := [0, 3, 6].contains
    I.size = A.size ∧ J.size = A.size ∧
    (∀ a < A.size,
      v (A.satisfied a) = J.isSatisfied a ∧ v (A.unsatisfied a) = J.isUnsatisfied a) ∧
    Clause.holds v (A.differs I) ∧ Clause.holds v (A.exceeds I) ∧ AllHold (A.extending I) v ∧
    AllHold ((A.fixing I).map ([·])) v ∧ (∀ l ∈ A.fixing I, l.holds v) ∧
    A.interpretation [6, 3, 0] = J := by
  intro A I J v
  have hv : ∀ a < A.size,
      v (A.satisfied a) = J.isSatisfied a ∧ v (A.unsatisfied a) = J.isUnsatisfied a := by decide
  obtain ⟨hdiffers, hexceeds, hextending, hfixing, hassumed, hread⟩ :=
    places_and_reads_back A I J rfl rfl v hv
  have hne : J ≠ I := by decide
  exact ⟨rfl, rfl, hv, hdiffers.2 hne, hexceeds.2 (by decide), hextending.2 ⟨by decide, hne⟩,
    hfixing.2 (by decide), hassumed.2 (by decide), hread _ (by decide)⟩

end Atoms

end Dialectical
