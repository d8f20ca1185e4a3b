import Dialectical.Proofs.Engines
import Dialectical.Proofs.Sessions

/-!
# Names extend valuations

A formula is named by clauses over variables that were not known before, and the clauses **define**
these variables: every valuation of the known variables extends to the new ones in exactly one way
such that the clauses hold (`Formula.existsUnique_extension`). Two solutions that agree on the known
variables agree on the name of every operand, and a gate says which value its own name has then; so
uniqueness is an induction over the formula, while existence is what `Formula.naming_defining` says.

With one polarity some of these clauses are left out (`Formula.defining_sublist`), and names are no
longer determined. What is kept is the direction that is asked for: a name of positive polarity can
be true, and a name of negative polarity can be false, exactly where the formula is
(`Naming.exists_iff`).

Both are said of sessions in the end, where clauses are added to those that were there before.
-/

namespace Dialectical

open Act Clause

/-! ### Valuations that differ on new variables -/

/-- Two valuations agree, other than on the variables from `n` on that lie below `m`. -/
def AgreeOutside (n m : Nat) (v w : Variable → Bool) : Prop := ∀ x, x < n ∨ m ≤ x → v x = w x

section

variable {n m : Nat} {u v w : Variable → Bool}

/-- On the old variables they agree. -/
theorem AgreeOutside.agreeBelow (h : AgreeOutside n m v w) : AgreeBelow n v w :=
  fun x hx ↦ h x (.inl hx)

/-- The new variables are all in which two such valuations may differ. -/
theorem AgreeOutside.eq_of_agreeBelow (hv : AgreeOutside n m u v) (hw : AgreeOutside n m u w)
    (h : AgreeBelow m v w) : v = w := by
  funext x
  rcases Nat.lt_or_ge x m with hx | hx
  · exact h x hx
  · exact (hv x (.inr hx)).symm.trans (hw x (.inr hx))

/-- If two valuations agree on the old variables, the first one can take the values of the second on
the new ones. -/
theorem AgreeBelow.exists_agreeOutside (h : AgreeBelow n v w) (m : Nat) :
    ∃ u, AgreeOutside n m v u ∧ AgreeBelow m w u := by
  refine ⟨fun x ↦ if x < m then w x else v x, fun x hx ↦ ?_, fun x hx ↦ (if_pos hx).symm⟩
  show v x = if x < m then w x else v x
  split
  next hm => exact h x (hx.resolve_right (Nat.not_le.2 hm))
  next => rfl

/-- Agreement is extended one variable at a time. -/
theorem AgreeBelow.succ (h : AgreeBelow n v w) (hn : v n = w n) : AgreeBelow (n + 1) v w := by
  intro x hx
  rcases Nat.lt_succ_iff_lt_or_eq.1 hx with hx | rfl
  · exact h x hx
  · exact hn

end

/-! ### Both polarities -/

namespace Formula

variable {n : Nat} {v w : Variable → Bool}

/-- **Solutions that agree on the known variables agree on the new ones.** -/
theorem agreeBelow_of_defining {φ : Formula Literal} (hφ : ∀ l ∈ φ.occurrences, l.var < n)
    (h : AgreeBelow n v w) (hv : AllHold (φ.defining .both n) v)
    (hw : AllHold (φ.defining .both n) w) : AgreeBelow (n + φ.gates) v w := by
  induction φ generalizing n with
  | top | bot => exact h.succ ((allHold_unit.1 hv).trans (allHold_unit.1 hw).symm)
  | leaf l => exact h
  | neg φ ih => exact ih hφ h hv hw
  | binary op φ ψ ihφ ihψ =>
    obtain ⟨hφ, -, hψ⟩ := var_lt_of_binary hφ
    rw [defining, Polarity.left_both, Polarity.right_both, allHold_append, allHold_append] at hv hw
    obtain ⟨hvφ, hvψ, hvgate⟩ := hv
    obtain ⟨hwφ, hwψ, hwgate⟩ := hw
    have hoperands := ihψ hψ (ihφ hφ h hvφ hwφ) hvψ hwψ
    have ha : (φ.nameAt n).holds v = (φ.nameAt n).holds w :=
      Literal.holds_congr hoperands (Nat.lt_add_right _ (var_nameAt_lt hφ))
    have hb : (ψ.nameAt (n + φ.gates)).holds v = (ψ.nameAt (n + φ.gates)).holds w :=
      Literal.holds_congr hoperands (var_nameAt_lt hψ)
    rw [Connective.allHold_gate, Polarity.ties_both, Literal.holds_pos] at hvgate hwgate
    rw [add_gates_binary]
    exact hoperands.succ (by rw [hvgate, hwgate, ha, hb])

/-- **The clauses define the new variables.** A valuation of the known variables extends to them in
exactly one way such that the clauses hold. -/
theorem existsUnique_extension {φ : Formula Literal} (hφ : ∀ l ∈ φ.occurrences, l.var < n)
    (v : Variable → Bool) :
    ∃! w, AgreeOutside n (n + φ.gates) v w ∧ AllHold (φ.defining .both n) w := by
  obtain ⟨u, hvu, hu, -⟩ := (φ.naming_defining .both hφ).complete v
  obtain ⟨w, hvw, huw⟩ := hvu.exists_agreeOutside (n + φ.gates)
  have hw : AllHold (φ.defining .both n) w :=
    localBelow_allHold (φ.gives_named .both hφ).span_le huw hu
  refine ⟨w, ⟨hvw, hw⟩, ?_⟩
  rintro w' ⟨hvw', hw'⟩
  have hagree := agreeBelow_of_defining hφ (hvw'.agreeBelow.symm.trans hvw.agreeBelow) hw' hw
  exact hvw'.eq_of_agreeBelow hvw hagree

/-- In a solution of the clauses the name has the value that the known variables give the formula.
-/
theorem holds_nameAt {φ : Formula Literal} (hφ : ∀ l ∈ φ.occurrences, l.var < n)
    (h : AgreeBelow n v w) (hw : AllHold (φ.defining .both n) w) :
    (φ.nameAt n).holds w = φ.eval (Literal.holds v) :=
  (Polarity.ties_both.1 ((φ.naming_defining .both hφ).sound w hw)).trans
    (eval_holds_congr hφ h).symm

end Formula

/-! ### One polarity -/

/-- One implication is some of the clauses of an equivalence. -/
theorem Connective.gate_sublist (op : Connective) (p : Polarity) (n a b : Literal) :
    (op.gate p n a b).Sublist (op.gate .both n a b) := by
  refine List.Sublist.append ?_ ?_ <;> split
  · exact List.Sublist.refl _
  · exact List.nil_sublist _
  · exact List.Sublist.refl _
  · exact List.nil_sublist _

/-- **A polarity leaves clauses out**, and adds none. -/
theorem Formula.defining_sublist (φ : Formula Literal) (p : Polarity) (n : Nat) :
    (φ.defining p n).Sublist (φ.defining .both n) := by
  induction φ generalizing p n with
  | top | bot | leaf => exact List.Sublist.refl _
  | neg φ ih => exact ih p.flip n
  | binary op φ ψ ihφ ihψ =>
    rw [defining, defining, Polarity.left_both, Polarity.right_both]
    exact (ihφ _ n).append ((ihψ _ _).append (op.gate_sublist p _ _ _))

/-- If a name that has the value `b` promises that the formula has it too, then the name can have
this value exactly where the formula has it. -/
theorem Naming.exists_iff {p : Polarity} {φ : Formula Literal} {n m : Nat} {l : Literal}
    {D : List Clause} {b : Bool} (h : Naming p φ n m l D) (hφ : ∀ l ∈ φ.occurrences, l.var < n)
    (hb : ∀ x, p.Ties b x → x = b) (v : Variable → Bool) :
    (∃ w, AgreeBelow n v w ∧ AllHold D w ∧ l.holds w = b) ↔ φ.eval (Literal.holds v) = b := by
  constructor
  · rintro ⟨w, hvw, hw, hl⟩
    rw [Formula.eval_holds_congr hφ hvw]
    exact hb _ (hl ▸ h.sound w hw)
  · intro hv
    obtain ⟨w, hvw, hw, hl⟩ := h.complete v
    exact ⟨w, hvw, hw, hl.trans hv⟩

/-! ### Naming in a session -/

/-- Clauses that can be met from the known variables on take no model of those that were there. -/
theorem Session.Covered.allHold_told {s : Session} {m : Nat} {D : List Clause}
    {v w : Variable → Bool} (hs : s.Covered) (hv : AllHold s.solver.clauses v)
    (hvw : AgreeBelow s.solver.known v w) (hw : AllHold D w) :
    AllHold (s.told m D).solver.clauses w :=
  allHold_append.2 ⟨allHold_reverse.2 hw, localBelow_allHold hs hvw hv⟩

namespace Condition

/-- What a condition is read over is where its leaves are. -/
theorem var_lt_of_map {c : Condition} {leaf : Nat → Literal} {n : Nat}
    (hleaf : ∀ a ∈ c.occurrences, (leaf a).var < n) :
    ∀ l ∈ (c.map leaf).occurrences, l.var < n := by
  rw [Formula.occurrences_map]
  exact List.forall_mem_map.2 hleaf

variable (e : Engine) (s : Session) (j : Journal) (leaf : Nat → Literal) (c : Condition)

/-- A condition is named without a question to the engine. -/
theorem exists_run_named (p : Polarity)
    (hleaf : ∀ a ∈ c.occurrences, (leaf a).var < s.solver.known) :
    ∃ j', (Session.perform ((c.map leaf).named p : Encoder Literal)).run e s j =
      ⟨.ok ((c.map leaf).nameAt s.solver.known),
        s.told (s.solver.known + c.gates) ((c.map leaf).defining p s.solver.known), j'⟩ := by
  have hgives := (c.map leaf).gives_named p (var_lt_of_map hleaf)
  have hensures := Session.ensures_perform (e := e) (s := s) (E := fun _ ↦ False)
    (Encoder.gives_lift hgives)
  obtain ⟨_, _, j', hrun, rfl, rfl⟩ := hensures.exists_run j
  rw [Formula.gates_map] at hrun
  exact ⟨j', hrun⟩

/-- **Naming a condition defines its new variables.** The condition may be read over any literals of
known variables. There is one new variable for each constant and each connective; the clauses are
over these and the known variables; every valuation of the known variables extends to the new ones
in exactly one way such that the clauses hold, and there the name has the value of the condition. So
no model of clauses that were there before is lost. -/
theorem named_extends (hleaf : ∀ a ∈ c.occurrences, (leaf a).var < s.solver.known) :
    ∃ l D j',
      (Session.perform ((c.map leaf).named .both : Encoder Literal)).run e s j =
        ⟨.ok l, s.told (s.solver.known + c.gates) D, j'⟩ ∧
      (∀ d ∈ D, span d ≤ s.solver.known + c.gates) ∧
      (∀ v, ∃! w, AgreeOutside s.solver.known (s.solver.known + c.gates) v w ∧ AllHold D w) ∧
      (∀ v w, AgreeBelow s.solver.known v w → AllHold D w →
        l.holds w = c.eval fun a ↦ (leaf a).holds v) ∧
      (s.Covered → ∀ v, AllHold s.solver.clauses v → ∃ w, AgreeBelow s.solver.known v w ∧
        AllHold (s.told (s.solver.known + c.gates) D).solver.clauses w) := by
  have hφ := var_lt_of_map hleaf
  have hspan := ((c.map leaf).gives_named .both hφ).span_le
  have hunique := Formula.existsUnique_extension hφ
  rw [Formula.gates_map] at hspan hunique
  obtain ⟨j', hrun⟩ := exists_run_named e s j leaf c .both hleaf
  refine ⟨_, _, j', hrun, hspan, hunique, fun v w hvw hw ↦ ?_, fun hs v hv ↦ ?_⟩
  · rw [Formula.holds_nameAt hφ hvw hw, Formula.eval_map]
    rfl
  · obtain ⟨w, ⟨hvw, hw⟩, -⟩ := hunique v
    exact ⟨w, hvw.agreeBelow, hs.allHold_told hv hvw.agreeBelow hw⟩

/-- A condition with a constant, and with a connective between an argument and itself. -/
def doubled : Condition := .binary .xor (.binary .and (.leaf 0) (.leaf 0)) (.neg .top)

/-- The case of this condition over a negated variable, of which a clause says that it is true. -/
theorem named_extends_doubled :
    (∀ a ∈ doubled.occurrences, (Variable.neg a).var < 1) ∧
    ∃ l D j',
      (Session.perform ((doubled.map Variable.neg).named .both : Encoder Literal)).run .exhaustive
          ⟨⟨0, 1, 0, [[Variable.pos 0]], []⟩, []⟩ .empty =
        ⟨.ok l, ⟨⟨0, 4, 0, D.reverse ++ [[Variable.pos 0]], []⟩, []⟩, j'⟩ ∧
      (∀ v, ∃! w, AgreeOutside 1 4 v w ∧ AllHold D w) ∧
      ∃ w, w 0 = true ∧ AllHold (D.reverse ++ [[Variable.pos 0]]) w ∧ l.holds w = false := by
  have hleaf : ∀ a ∈ doubled.occurrences, (Variable.neg a).var < 1 := by decide
  obtain ⟨l, D, j', hrun, -, hunique, hvalue, hmodels⟩ := named_extends .exhaustive
    ⟨⟨0, 1, 0, [[Variable.pos 0]], []⟩, []⟩ .empty Variable.neg doubled hleaf
  have hcovered : Session.Covered ⟨⟨0, 1, 0, [[Variable.pos 0]], []⟩, []⟩ := by
    simp [Session.Covered, span]
  refine ⟨hleaf, l, D, j', hrun, hunique, ?_⟩
  obtain ⟨w, hvw, hw⟩ := hmodels hcovered (fun _ ↦ true) (allHold_unit.2 rfl)
  have hD : AllHold D w := allHold_reverse.1 (allHold_append.1 hw).1
  exact ⟨w, (hvw 0 Nat.one_pos).symm, hw, hvalue _ w hvw hD⟩

/-- **One polarity keeps the direction that is asked for.** The name and the new variables are the
same for all polarities, and the clauses for one are some of those for both. With the positive ones
the name can be true exactly where the condition is, with the negative ones it can be false exactly
where the condition is. -/
theorem named_one_sided (hleaf : ∀ a ∈ c.occurrences, (leaf a).var < s.solver.known) :
    ∃ l P N D jp jn jb,
      (Session.perform ((c.map leaf).named .positive : Encoder Literal)).run e s j =
        ⟨.ok l, s.told (s.solver.known + c.gates) P, jp⟩ ∧
      (Session.perform ((c.map leaf).named .negative : Encoder Literal)).run e s j =
        ⟨.ok l, s.told (s.solver.known + c.gates) N, jn⟩ ∧
      (Session.perform ((c.map leaf).named .both : Encoder Literal)).run e s j =
        ⟨.ok l, s.told (s.solver.known + c.gates) D, jb⟩ ∧
      P.Sublist D ∧ N.Sublist D ∧
      (∀ v, (∃ w, AgreeBelow s.solver.known v w ∧ AllHold P w ∧ l.holds w = true) ↔
        (c.eval fun a ↦ (leaf a).holds v) = true) ∧
      ∀ v, (∃ w, AgreeBelow s.solver.known v w ∧ AllHold N w ∧ l.holds w = false) ↔
        (c.eval fun a ↦ (leaf a).holds v) = false := by
  have hφ := var_lt_of_map hleaf
  have heval : ∀ v, (c.map leaf).eval (Literal.holds v) = c.eval fun a ↦ (leaf a).holds v :=
    fun v ↦ Formula.eval_map leaf _ c
  obtain ⟨jp, hp⟩ := exists_run_named e s j leaf c .positive hleaf
  obtain ⟨jn, hn⟩ := exists_run_named e s j leaf c .negative hleaf
  obtain ⟨jb, hb⟩ := exists_run_named e s j leaf c .both hleaf
  refine ⟨_, _, _, _, jp, jn, jb, hp, hn, hb, Formula.defining_sublist _ _ _,
    Formula.defining_sublist _ _ _, fun v ↦ ?_, fun v ↦ ?_⟩
  · have hpromise : ∀ x, Polarity.positive.Ties true x → x = true := fun x h ↦ h.1 rfl rfl
    rw [← heval]
    exact ((c.map leaf).naming_defining .positive hφ).exists_iff hφ hpromise v
  · have hpromise : ∀ x, Polarity.negative.Ties false x → x = false := fun x h ↦
      Bool.eq_false_iff.2 fun hx ↦ Bool.noConfusion (h.2 rfl hx)
    rw [← heval]
    exact ((c.map leaf).naming_defining .negative hφ).exists_iff hφ hpromise v

/-- An implication from an equivalence to a negation: its polarity is switched, lost and kept. -/
def nested : Condition :=
  .binary .imp (.binary .iff (.leaf 0) (.leaf 1)) (.neg (.binary .and (.leaf 0) (.leaf 1)))

/-- The case of this condition at two true arguments, where it is false: the positive name cannot be
true, and the negative one can be false. -/
theorem named_one_sided_nested :
    (∀ a ∈ nested.occurrences, (Variable.pos a).var < 2) ∧
    ∃ l P N jp jn,
      (Session.perform ((nested.map Variable.pos).named .positive : Encoder Literal)).run
          .exhaustive ⟨⟨0, 2, 0, [], []⟩, []⟩ .empty =
        ⟨.ok l, ⟨⟨0, 5, 0, P.reverse ++ [], []⟩, []⟩, jp⟩ ∧
      (Session.perform ((nested.map Variable.pos).named .negative : Encoder Literal)).run
          .exhaustive ⟨⟨0, 2, 0, [], []⟩, []⟩ .empty =
        ⟨.ok l, ⟨⟨0, 5, 0, N.reverse ++ [], []⟩, []⟩, jn⟩ ∧
      (¬∃ w, AgreeBelow 2 (fun _ ↦ true) w ∧ AllHold P w ∧ l.holds w = true) ∧
      ∃ w, AgreeBelow 2 (fun _ ↦ true) w ∧ AllHold N w ∧ l.holds w = false := by
  have hleaf : ∀ a ∈ nested.occurrences, (Variable.pos a).var < 2 := by decide
  obtain ⟨l, P, N, -, jp, jn, -, hp, hn, -, -, -, hpositive, hnegative⟩ :=
    named_one_sided .exhaustive ⟨⟨0, 2, 0, [], []⟩, []⟩ .empty Variable.pos nested hleaf
  refine ⟨hleaf, l, P, N, jp, jn, hp, hn, fun hw ↦ ?_, (hnegative _).2 (by decide)⟩
  exact absurd ((hpositive _).1 hw) (by decide)

end Condition

end Dialectical
