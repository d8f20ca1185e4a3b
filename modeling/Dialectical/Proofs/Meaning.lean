import Dialectical.Encoding.Naming
import Mathlib.Logic.Function.Basic
import Mathlib.Order.Nat

/-!
# What clauses mean

Clauses are written over many variables, of which only the first few are known to those who ask
about them; the others are names that were made up on the way. `Clause.Mean k cs P` says that, seen
on the first `k` variables, the clauses `cs` say exactly `P`: their solutions have `P`, and every
valuation with `P` can be changed beyond the first `k` variables so that it becomes a solution.

Meanings are combined by `Clause.Mean.append`. It needs that the first clauses stay below the
variables that the second ones make up, and this is where fresh variables pay off.
-/

namespace Dialectical

/-! ### Valuations -/

/-- Two valuations agree on the first `n` variables. -/
def AgreeBelow (n : Nat) (v w : Variable → Bool) : Prop := ∀ x < n, v x = w x

/-- A property of valuations that looks at the first `n` variables only. -/
def LocalBelow (n : Nat) (P : (Variable → Bool) → Prop) : Prop :=
  ∀ ⦃v w⦄, AgreeBelow n v w → P v → P w

section

variable {n m : Nat} {u v w : Variable → Bool} {P Q : (Variable → Bool) → Prop}

theorem AgreeBelow.refl (n : Nat) (v : Variable → Bool) : AgreeBelow n v v := fun _ _ ↦ rfl

theorem AgreeBelow.symm (h : AgreeBelow n v w) : AgreeBelow n w v := fun x hx ↦ (h x hx).symm

theorem AgreeBelow.trans (h : AgreeBelow n u v) (h' : AgreeBelow n v w) : AgreeBelow n u w :=
  fun x hx ↦ (h x hx).trans (h' x hx)

theorem AgreeBelow.mono (h : AgreeBelow m v w) (hnm : n ≤ m) : AgreeBelow n v w :=
  fun x hx ↦ h x (by omega)

/-- Changing the first variable beyond the known ones is not seen on the known ones. -/
theorem agreeBelow_update (n : Nat) (v : Variable → Bool) (b : Bool) :
    AgreeBelow n v (Function.update v n b) := by
  intro x hx
  rw [Function.update_of_ne (Nat.ne_of_lt hx)]

/-- What looks at few variables looks at no others among more. -/
theorem LocalBelow.mono (h : LocalBelow n P) (hnm : n ≤ m) : LocalBelow m P :=
  fun _ _ hvw ↦ h (hvw.mono hnm)

theorem LocalBelow.and (h : LocalBelow n P) (h' : LocalBelow n Q) :
    LocalBelow n fun v ↦ P v ∧ Q v :=
  fun _ _ hvw hv ↦ ⟨h hvw hv.1, h' hvw hv.2⟩

theorem localBelow_const (n : Nat) (p : Prop) : LocalBelow n fun _ ↦ p := fun _ _ _ hp ↦ hp

end

/-- A literal looks at its variable. -/
theorem Literal.holds_congr {l : Literal} {n : Nat} {v w : Variable → Bool} (h : AgreeBelow n v w)
    (hl : l.var < n) : l.holds v = l.holds w := by
  rw [holds, holds, h _ hl]

theorem Literal.holds_pos (v : Variable → Bool) (x : Variable) : x.pos.holds v = v x :=
  beq_true (v x)

/-! ### Clauses -/

namespace Clause

/-- The valuation makes all of some clauses true. -/
def AllHold (cs : List Clause) (v : Variable → Bool) : Prop := ∀ c ∈ cs, Clause.holds v c

variable {c : Clause} {cs ds : List Clause} {k n : Nat} {v w : Variable → Bool}
  {P Q : (Variable → Bool) → Prop}

/-- A clause is true if one of its literals is. -/
theorem holds_iff : Clause.holds v c ↔ ∃ l ∈ c, l.holds v := List.any_eq_true

@[simp]
theorem holds_nil : ¬Clause.holds v [] := by simp [Clause.holds]

theorem holds_cons {l : Literal} : Clause.holds v (l :: c) ↔ l.holds v ∨ Clause.holds v c := by
  simp [Clause.holds]

@[simp]
theorem holds_pair {l l' : Literal} : Clause.holds v [l, l'] ↔ l.holds v ∨ l'.holds v := by
  simp [Clause.holds]

@[simp]
theorem holds_singleton {l : Literal} : Clause.holds v [l] ↔ l.holds v := by
  simp [Clause.holds]

@[simp]
theorem allHold_nil : AllHold [] v := fun _ h ↦ absurd h List.not_mem_nil

theorem allHold_cons : AllHold (c :: cs) v ↔ Clause.holds v c ∧ AllHold cs v :=
  List.forall_mem_cons

theorem allHold_append : AllHold (cs ++ ds) v ↔ AllHold cs v ∧ AllHold ds v :=
  List.forall_mem_append

theorem allHold_reverse : AllHold cs.reverse v ↔ AllHold cs v := by
  simp [AllHold]

theorem allHold_singleton : AllHold [c] v ↔ Clause.holds v c := by
  simp [AllHold]

/-- A unit clause gives a variable its value. -/
theorem allHold_unit {x : Variable} {b : Bool} : AllHold [[⟨x, b⟩]] v ↔ v x = b := by
  rw [allHold_singleton, holds_singleton, Literal.holds, beq_iff_eq]

/-- A clause is covered by a number of variables that covers its literals. -/
theorem span_le_iff {c : List Literal} {n : Nat} : span c ≤ n ↔ ∀ l ∈ c, l.var < n := by
  have hfold : ∀ m, c.foldl (fun n l ↦ max n (l.var + 1)) m ≤ n ↔ m ≤ n ∧ ∀ l ∈ c, l.var < n := by
    induction c with
    | nil => simp
    | cons l c ih =>
      intro m
      rw [List.foldl_cons, ih, List.forall_mem_cons, Nat.max_le]
      exact ⟨fun h ↦ ⟨h.1.1, h.1.2, h.2⟩, fun h ↦ ⟨⟨h.1, h.2.1⟩, h.2.2⟩⟩
  rw [span, hfold]
  simp

/-- A clause looks at the variables that it spans. -/
theorem holds_congr (h : AgreeBelow n v w) (hc : span c ≤ n) :
    Clause.holds v c = Clause.holds w c := by
  rw [Bool.eq_iff_iff, holds_iff, holds_iff]
  refine exists_congr fun l ↦ and_congr_right fun hl ↦ ?_
  rw [Literal.holds_congr h (span_le_iff.1 hc l hl)]

theorem localBelow_holds (hc : span c ≤ n) : LocalBelow n fun v ↦ Clause.holds v c :=
  fun _ _ hvw hv ↦ (holds_congr hvw hc).symm.trans hv

/-- And clauses look at those that all of them span. -/
theorem localBelow_allHold (hcs : ∀ c ∈ cs, span c ≤ n) : LocalBelow n (AllHold cs) :=
  fun _ _ hvw hv c hc ↦ localBelow_holds (hcs c hc) hvw (hv c hc)

/-! ### Meanings -/

/-- Seen on the first `k` variables, the clauses say exactly `P`. -/
structure Mean (k : Nat) (cs : List Clause) (P : (Variable → Bool) → Prop) : Prop where
  sound : ∀ v, AllHold cs v → P v
  complete : ∀ v, P v → ∃ w, AgreeBelow k v w ∧ AllHold cs w

/-- No clauses say nothing. -/
theorem mean_nil (k : Nat) : Mean k [] fun _ ↦ True :=
  ⟨fun _ _ ↦ trivial, fun v _ ↦ ⟨v, .refl k v, allHold_nil⟩⟩

/-- Clauses say that they hold, on however few variables they are seen. -/
theorem mean_self (k : Nat) (cs : List Clause) : Mean k cs (AllHold cs) :=
  ⟨fun _ h ↦ h, fun v h ↦ ⟨v, .refl k v, h⟩⟩

/-- What clauses say may be said in other words. -/
theorem Mean.congr (h : Mean k cs P) (hPQ : ∀ v, P v ↔ Q v) : Mean k cs Q :=
  ⟨fun v hv ↦ (hPQ v).1 (h.sound v hv), fun v hv ↦ h.complete v ((hPQ v).2 hv)⟩

/-- Fewer variables are looked at. -/
theorem Mean.mono (h : Mean n cs P) (hkn : k ≤ n) : Mean k cs P := by
  refine ⟨h.sound, fun v hv ↦ ?_⟩
  obtain ⟨w, hvw, hw⟩ := h.complete v hv
  exact ⟨w, hvw.mono hkn, hw⟩

/-- The order of clauses does not matter. -/
theorem Mean.of_allHold_iff (h : Mean k cs P) (hds : ∀ v, AllHold ds v ↔ AllHold cs v) :
    Mean k ds P :=
  ⟨fun v hv ↦ h.sound v ((hds v).1 hv), fun v hv ↦
    let ⟨w, hw, hcs⟩ := h.complete v hv
    ⟨w, hw, (hds w).2 hcs⟩⟩

/-- Questions about the first `k` variables are answered by the meaning. -/
theorem Mean.exists_iff (h : Mean k cs P) (hQ : LocalBelow k Q) :
    (∃ v, AllHold cs v ∧ Q v) ↔ ∃ v, P v ∧ Q v := by
  constructor
  · rintro ⟨v, hv, hq⟩
    exact ⟨v, h.sound v hv, hq⟩
  · rintro ⟨v, hp, hq⟩
    obtain ⟨w, hvw, hw⟩ := h.complete v hp
    exact ⟨w, hw, hQ hvw hq⟩

/-- **Meanings add up.** The first clauses use the first `n` variables; the second ones may make up
variables beyond these, but speak about the first `k` only. -/
theorem Mean.append (h : Mean k cs P) (hcs : ∀ c ∈ cs, span c ≤ n) (h' : Mean n ds Q)
    (hkn : k ≤ n) (hQ : LocalBelow k Q) : Mean k (cs ++ ds) fun v ↦ P v ∧ Q v := by
  constructor
  · intro v hv
    obtain ⟨hv₁, hv₂⟩ := allHold_append.1 hv
    exact ⟨h.sound v hv₁, h'.sound v hv₂⟩
  · rintro v ⟨hP, hQv⟩
    obtain ⟨w, hvw, hw⟩ := h.complete v hP
    -- beyond the first `n` variables, where the first clauses do not look
    obtain ⟨w', hww', hw'⟩ := h'.complete w (hQ hvw hQv)
    exact ⟨w', hvw.trans (hww'.mono hkn),
      allHold_append.2 ⟨localBelow_allHold hcs hww' hw, hw'⟩⟩

end Clause

end Dialectical
