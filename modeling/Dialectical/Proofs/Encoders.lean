import Dialectical.Proofs.Meaning

/-!
# What encoders ask for

An encoder is a function of the number of known variables, so what it asks for can be written down:
`Emit.Gives` says which result, how many known variables and which clauses come out of a run.

Most encoders make up variables on the way and have a meaning that does not depend on which ones.
`Encoder.Imposes x k a P` says that the encoder `x` returns `a` and imposes the condition `P` on the
first `k` variables, however many are known beyond these. Conditions imposed one after the other add
up (`Imposes.bind`, `Imposes.forM`, `Imposes.mapM`).

Variables are made up in one place only, where formulas are named. The name and the clauses of a
formula are functions of the number of known variables (`Formula.nameAt`, `Formula.defining`), and
the run of the encoder gives these (`Formula.gives_named`). A name is tied to its formula as far as
its polarity says, and every valuation of the known variables extends to one where it has exactly
the value of the formula (`Formula.naming_defining`).
-/

namespace Dialectical

open Clause

/-! ### Runs -/

section

variable {α β : Type} {n m k : Nat} {D E : List Clause}

/-- With `n` variables known, a computation returns `a`, knows `m` variables afterwards and asks for
the clauses `D`. -/
structure Emit.Gives (x : Emit α) (n : Nat) (a : α) (m : Nat) (D : List Clause) : Prop where
  result : (x.run n).result = a
  known : (x.run n).known = m
  clauses : Directive.clauses (x.run n).directives = D
  /-- The known variables are counted as a solver counts them. -/
  counted : (x.run n).directives.foldl Directive.known n = m

/-- As `Emit.Gives`, for an encoder that ends without a fault. -/
abbrev Encoder.Gives (x : Encoder α) (n : Nat) (a : α) (m : Nat) (D : List Clause) : Prop :=
  Emit.Gives (ExceptT.run x) n (.ok a) m D

/-- Requests make variables known and forget none. -/
theorem Directive.le_foldl_known (ds : List Directive) (n : Nat) :
    n ≤ ds.foldl Directive.known n := by
  induction ds generalizing n with
  | nil => exact Nat.le_refl n
  | cons d ds ih =>
    refine Nat.le_trans ?_ (ih (d.known n))
    cases d <;> exact Nat.le_max_left _ _

/-- All variables of a clause are known after the request for it. -/
theorem Directive.span_le_foldl_known {ds : List Directive} {n : Nat} {c : Clause}
    (hc : c ∈ Directive.clauses ds) : span c ≤ ds.foldl Directive.known n := by
  induction ds generalizing n with
  | nil => simp [Directive.clauses] at hc
  | cons d ds ih =>
    cases d with
    | reserve m => exact ih hc
    | clause d =>
      rcases List.mem_cons.1 hc with rfl | hc
      · exact Nat.le_trans (Nat.le_max_right _ _) (Directive.le_foldl_known ds _)
      · exact ih hc

namespace Emit

/-- What was known stays known. -/
theorem Gives.le {x : Emit α} {a : α} (h : x.Gives n a m D) : n ≤ m :=
  h.counted ▸ Directive.le_foldl_known _ n

/-- The clauses that are asked for are covered by the variables known afterwards. -/
theorem Gives.span_le {x : Emit α} {a : α} (h : x.Gives n a m D) : ∀ c ∈ D, span c ≤ m := by
  intro c hc
  rw [← h.counted]
  exact Directive.span_le_foldl_known (h.clauses ▸ hc)

theorem gives_pure (a : α) (n : Nat) : (pure a : Emit α).Gives n a n [] := ⟨rfl, rfl, rfl, rfl⟩

/-- A new variable is the first one that is not known, and needs no clause. -/
theorem gives_fresh (n : Nat) : fresh.Gives n n (n + 1) [] :=
  ⟨rfl, rfl, rfl, by simp [fresh, Directive.known]⟩

/-- A clause makes its variables known. -/
theorem gives_clause (c : Clause) (n : Nat) :
    (clause c).Gives n () (max n (span c)) [c] := ⟨rfl, rfl, rfl, rfl⟩

/-- **Sequencing.** The second computation begins with what the first one knows, and its clauses
come last. -/
theorem Gives.bind {x : Emit α} {f : α → Emit β} {a : α} {b : β} (h : x.Gives n a m D)
    (h' : (f a).Gives m b k E) : (x >>= f).Gives n b k (D ++ E) := by
  obtain ⟨hr, hk, hc, hn⟩ := h
  obtain ⟨hr', hk', hc', hn'⟩ := h'
  refine ⟨?_, ?_, ?_, ?_⟩
  · rw [run_bind, hr, hk, hr']
  · rw [run_bind, hr, hk, hk']
  · rw [run_bind, hr, hk, Directive.clauses, List.filterMap_append]
    exact congrArg₂ (· ++ ·) hc hc'
  · rw [run_bind, hr, hk, List.foldl_append, hn, hn']

theorem Gives.map {x : Emit α} {a : α} (h : x.Gives n a m D) (f : α → β) :
    (f <$> x).Gives n (f a) m D := by
  have := h.bind (f := fun a ↦ pure (f a)) (gives_pure (f a) m)
  rwa [List.append_nil, ← map_eq_pure_bind] at this

/-- Clauses that stay below the known variables make no others known. -/
theorem gives_clauses {cs : List Clause} (hcs : ∀ c ∈ cs, span c ≤ n) :
    (clauses cs).Gives n () n cs := by
  induction cs with
  | nil => exact gives_pure () n
  | cons c cs ih =>
    have hc : (clause c).Gives n () n [c] := by
      have := gives_clause c n
      rwa [Nat.max_eq_left (hcs c (by simp))] at this
    exact hc.bind (ih fun d hd ↦ hcs d (by simp [hd]))

/-- Any clauses can be asked for; they may make variables known. -/
theorem exists_gives_clauses (cs : List Clause) (n : Nat) :
    ∃ m, (clauses cs).Gives n () m cs := by
  induction cs generalizing n with
  | nil => exact ⟨n, gives_pure () n⟩
  | cons c cs ih =>
    obtain ⟨m, hm⟩ := ih (max n (span c))
    exact ⟨m, (gives_clause c n).bind hm⟩

end Emit

namespace Encoder

theorem gives_pure (a : α) (n : Nat) : (pure a : Encoder α).Gives n a n [] :=
  Emit.gives_pure (Except.ok a) n

theorem gives_ofExcept {x : Except Fault α} {a : α} (h : x = .ok a) (n : Nat) :
    (ofExcept x).Gives n a n [] := by
  subst h
  exact Emit.gives_pure (Except.ok a) n

/-- A computation that cannot fail gives the same as an encoder. -/
theorem gives_lift {x : Emit α} {a : α} (h : x.Gives n a m D) :
    Encoder.Gives (ExceptT.lift x) n a m D :=
  h.map Except.ok

theorem gives_bind {x : Encoder α} {f : α → Encoder β} {a : α} {b : β} (h : x.Gives n a m D)
    (h' : (f a).Gives m b k E) : (x >>= f).Gives n b k (D ++ E) :=
  Emit.Gives.bind h h'

end Encoder

end

/-! ### Conditions imposed on the first variables -/

/-- With the first `k` variables known, and maybe others, the encoder returns `a` and imposes the
condition `P` on the first `k` variables. -/
structure Encoder.Imposes {α : Type} (x : Encoder α) (k : Nat) (a : α)
    (P : (Variable → Bool) → Prop) : Prop where
  localBelow : LocalBelow k P
  gives : ∀ n, k ≤ n → ∃ m D, x.Gives n a m D ∧ Mean n D P

namespace Encoder

variable {α β : Type} {k : Nat} {a : α} {P Q : (Variable → Bool) → Prop}

/-- The condition may be said in other words. -/
theorem Imposes.congr {x : Encoder α} (h : x.Imposes k a P) (hPQ : ∀ v, P v ↔ Q v) :
    x.Imposes k a Q := by
  refine ⟨fun v w hvw hv ↦ (hPQ w).1 (h.localBelow hvw ((hPQ v).2 hv)), fun n hn ↦ ?_⟩
  obtain ⟨m, D, hD, hmean⟩ := h.gives n hn
  exact ⟨m, D, hD, hmean.congr hPQ⟩

/-- What asks for no clauses imposes nothing. -/
theorem imposes_pure (a : α) (k : Nat) : (pure a : Encoder α).Imposes k a fun _ ↦ True :=
  ⟨localBelow_const k True, fun n _ ↦ ⟨n, [], gives_pure a n, mean_nil n⟩⟩

theorem imposes_ofExcept {x : Except Fault α} (h : x = .ok a) (k : Nat) :
    (ofExcept x).Imposes k a fun _ ↦ True :=
  ⟨localBelow_const k True, fun n _ ↦ ⟨n, [], gives_ofExcept h n, mean_nil n⟩⟩

/-- Clauses over known variables impose that they hold. -/
theorem imposes_clauses {cs : List Clause} (hcs : ∀ c ∈ cs, span c ≤ k) :
    (clauses cs).Imposes k () (AllHold cs) :=
  ⟨localBelow_allHold hcs, fun n hn ↦ ⟨n, cs,
    gives_lift (Emit.gives_clauses fun c hc ↦ (hcs c hc).trans hn), mean_self n cs⟩⟩

theorem imposes_clause {c : Clause} (hc : span c ≤ k) :
    (clause c).Imposes k () fun v ↦ Clause.holds v c := by
  refine ⟨localBelow_holds hc, fun n hn ↦ ⟨_, _, gives_lift (Emit.gives_clause c n), ?_⟩⟩
  exact (mean_self n [c]).congr fun v ↦ allHold_singleton

/-- **Sequencing.** Both conditions are imposed. What the first encoder adds for itself does not
matter to the second, whose condition is about the first variables alone. -/
theorem Imposes.bind {x : Encoder α} {f : α → Encoder β} {b : β} (h : x.Imposes k a P)
    (h' : (f a).Imposes k b Q) : (x >>= f).Imposes k b fun v ↦ P v ∧ Q v := by
  refine ⟨h.localBelow.and h'.localBelow, fun n hn ↦ ?_⟩
  obtain ⟨m, D, hD, hmean⟩ := h.gives n hn
  obtain ⟨m', E, hE, hmean'⟩ := h'.gives m (hn.trans hD.le)
  exact ⟨m', D ++ E, gives_bind hD hE,
    hmean.append hD.span_le hmean' hD.le (h'.localBelow.mono hn)⟩

/-- The value that is returned does not matter. -/
theorem Imposes.bind_pure {x : Encoder α} {f : α → β} (h : x.Imposes k a P) :
    Encoder.Imposes (do return f (← x)) k (f a) P :=
  (h.bind (f := fun a ↦ pure (f a)) (imposes_pure (f a) k)).congr fun _ ↦ and_iff_left trivial

/-- A loop imposes the conditions of all its turns. -/
theorem Imposes.forM {as : List α} {f : α → Encoder PUnit} {P : α → (Variable → Bool) → Prop}
    (h : ∀ a ∈ as, (f a).Imposes k () (P a)) :
    (as.forM f).Imposes k () fun v ↦ ∀ a ∈ as, P a v := by
  induction as with
  | nil => exact (imposes_pure () k).congr fun v ↦ by simp
  | cons a as ih =>
    have ha := (h a (by simp)).bind (f := fun _ ↦ as.forM f) (ih fun d hd ↦ h d (by simp [hd]))
    exact ha.congr fun v ↦ (List.forall_mem_cons (p := fun a ↦ P a v)).symm

/-- And so does one that collects results. -/
theorem Imposes.mapM {as : List α} {f : α → Encoder β} {r : α → β}
    {P : α → (Variable → Bool) → Prop} (h : ∀ a ∈ as, (f a).Imposes k (r a) (P a)) :
    (as.mapM f).Imposes k (as.map r) fun v ↦ ∀ a ∈ as, P a v := by
  induction as with
  | nil => exact (imposes_pure [] k).congr fun v ↦ by simp
  | cons a as ih =>
    rw [List.mapM_cons]
    have has := (ih fun d hd ↦ h d (by simp [hd])).bind (f := fun bs ↦ pure (r a :: bs))
      (imposes_pure (r a :: as.map r) k)
    exact ((h a (by simp)).bind (f := fun b ↦ do return b :: (← as.mapM f)) has).congr
      fun v ↦ by simp

end Encoder

/-! ### Names -/

namespace Polarity

/-- What a name of this polarity promises about the value of its formula. -/
def Ties (p : Polarity) (name value : Bool) : Prop :=
  (p.hasPositive → name → value) ∧ (p.hasNegative → value → name)

/-- A name of both polarities is its formula. -/
theorem ties_both {name value : Bool} : both.Ties name value ↔ name = value := by
  cases name <;> cases value <;> simp [Ties, hasPositive, hasNegative]

/-- A name that has the value of its formula keeps every promise. -/
theorem Ties.of_eq {p : Polarity} {name value : Bool} (h : name = value) : p.Ties name value := by
  subst h
  exact ⟨fun _ ↦ id, fun _ ↦ id⟩

/-- Negating a name and its formula turns the polarity around. -/
theorem Ties.flip {p : Polarity} {name value : Bool} (h : p.flip.Ties name value) :
    p.Ties (!name) (!value) := by
  cases p <;> cases name <;> cases value <;>
    simp_all [Ties, Polarity.flip, hasPositive, hasNegative]

/-- The operands have both polarities if the connective has. -/
theorem left_both (op : Connective) : both.left op = both := by
  cases op <;> rfl

theorem right_both (op : Connective) : both.right op = both := by
  cases op <;> rfl

/-- The promises of the operands and of the gate are the promise of the whole. -/
theorem Ties.binary {p : Polarity} {op : Connective} {n a b x y : Bool}
    (ha : (p.left op).Ties a x) (hb : (p.right op).Ties b y) (hn : p.Ties n (op.apply a b)) :
    p.Ties n (op.apply x y) := by
  cases op <;> cases p <;>
    simp only [Ties, left, right, Polarity.flip, hasPositive, hasNegative,
      Connective.apply] at * <;>
    revert ha hb hn <;> revert n a b x y <;> decide

end Polarity

/-- The clauses of a gate hold exactly if the name keeps its promise. -/
theorem Connective.allHold_gate {op : Connective} {p : Polarity} {n a b : Literal}
    {v : Variable → Bool} : AllHold (op.gate p n a b) v ↔
      p.Ties (n.holds v) (op.apply (a.holds v) (b.holds v)) := by
  have himplied := List.all_eq_true.symm.trans (Bool.eq_iff_iff.1 (holds_implied op n a b v))
  have himplying := List.all_eq_true.symm.trans (Bool.eq_iff_iff.1 (holds_implying op n a b v))
  rw [gate, allHold_append, AllHold, AllHold, Polarity.Ties]
  refine and_congr ?_ ?_
  · cases p.hasPositive
    · simp
    · rw [if_pos rfl, himplied]
      cases n.holds v <;> simp
  · cases p.hasNegative
    · simp
    · rw [if_pos rfl, himplying]
      cases n.holds v <;> simp

/-- A gate speaks about the name and the operands only. -/
theorem Connective.var_of_mem_gate {op : Connective} {p : Polarity} {n a b : Literal} :
    ∀ c ∈ op.gate p n a b, ∀ l ∈ c, l.var = n.var ∨ l.var = a.var ∨ l.var = b.var := by
  cases op <;> cases p <;>
    simp [gate, implied, implying, Polarity.hasPositive, Polarity.hasNegative, Literal.negate]

/-- The clauses of a gate need no variable beyond the one that is made for its name. -/
theorem Connective.span_gate_le {op : Connective} {p : Polarity} {k : Nat} {a b : Literal}
    (ha : a.var < k) (hb : b.var < k) : ∀ c ∈ op.gate p (Variable.pos k) a b, span c ≤ k + 1 := by
  refine fun c hc ↦ span_le_iff.2 fun l hl ↦ ?_
  rcases Connective.var_of_mem_gate c hc l hl with h | h | h <;> rw [h]
  · exact Nat.lt_succ_self k
  · exact Nat.lt_succ_of_lt ha
  · exact Nat.lt_succ_of_lt hb

/-- A formula was named when `n` variables were known: the name is `l`, and `D` are the clauses that
tie it to the formula. -/
structure Naming (p : Polarity) (φ : Formula Literal) (n m : Nat) (l : Literal)
    (D : List Clause) : Prop where
  var_lt : l.var < m
  sound : ∀ v, AllHold D v → p.Ties (l.holds v) (φ.eval (Literal.holds v))
  complete : ∀ v, ∃ w, AgreeBelow n v w ∧ AllHold D w ∧ l.holds w = φ.eval (Literal.holds v)

/-- Names restrict nothing. -/
theorem Naming.mean {p : Polarity} {φ : Formula Literal} {n m : Nat} {l : Literal} {D : List Clause}
    (h : Naming p φ n m l D) : Mean n D fun _ ↦ True := by
  refine ⟨fun _ _ ↦ trivial, fun v _ ↦ ?_⟩
  obtain ⟨w, hvw, hw, -⟩ := h.complete v
  exact ⟨w, hvw, hw⟩

/-- A formula over known variables does not see changes of the others. -/
theorem Formula.eval_holds_congr {φ : Formula Literal} {n : Nat} {v w : Variable → Bool}
    (hφ : ∀ l ∈ φ.occurrences, l.var < n) (h : AgreeBelow n v w) :
    φ.eval (Literal.holds v) = φ.eval (Literal.holds w) :=
  φ.eval_congr fun l hl ↦ Literal.holds_congr h (hφ l hl)

/-- A unit clause about a fresh variable names a constant. -/
theorem Naming.constant (p : Polarity) (n : Nat) (b : Bool) {φ : Formula Literal}
    (hφ : ∀ v, φ.eval v = b) : Naming p φ n (n + 1) (Variable.pos n) [[⟨n, b⟩]] := by
  refine ⟨Nat.lt_succ_self n, fun v hv ↦ .of_eq ?_, fun v ↦ ⟨Function.update v n b, ?_, ?_, ?_⟩⟩
  · rw [hφ, Literal.holds_pos, allHold_unit.1 hv]
  · exact agreeBelow_update n v b
  · exact allHold_unit.2 (Function.update_self n b v)
  · rw [hφ, Literal.holds_pos, Function.update_self]

/-- A literal is its own name. -/
theorem Naming.leaf (p : Polarity) {n : Nat} {l : Literal} (hl : l.var < n) :
    Naming p (.leaf l) n n l [] :=
  ⟨hl, fun _ _ ↦ .of_eq rfl, fun v ↦ ⟨v, .refl n v, allHold_nil, rfl⟩⟩

/-- The name of a negation is the negated name, which costs neither a variable nor a clause. -/
theorem Naming.neg {p : Polarity} {φ : Formula Literal} {n m : Nat} {l : Literal} {D : List Clause}
    (h : Naming p.flip φ n m l D) : Naming p φ.neg n m l.negate D := by
  refine ⟨h.var_lt, fun v hv ↦ ?_, fun v ↦ ?_⟩
  · rw [Literal.holds_negate]
    exact (h.sound v hv).flip
  · obtain ⟨w, hvw, hw, hl⟩ := h.complete v
    exact ⟨w, hvw, hw, by rw [Literal.holds_negate, hl, Formula.eval]⟩

/-- A gate over the names of the operands. Its own name is the first variable beyond those of the
operands, which get their values one after the other. -/
theorem Naming.binary {p : Polarity} {op : Connective} {φ ψ : Formula Literal} {n m k : Nat}
    {a b : Literal} {D E : List Clause} (ha : Naming (p.left op) φ n m a D)
    (hb : Naming (p.right op) ψ m k b E) (hψ : ∀ l ∈ ψ.occurrences, l.var < n) (hnm : n ≤ m)
    (hmk : m ≤ k) (hD : ∀ c ∈ D, span c ≤ m) (hE : ∀ c ∈ E, span c ≤ k) :
    Naming p (.binary op φ ψ) n (k + 1) (Variable.pos k)
      (D ++ (E ++ op.gate p (Variable.pos k) a b)) := by
  have hak : a.var < k := Nat.lt_of_lt_of_le ha.var_lt hmk
  refine ⟨Nat.lt_succ_self k, fun v hv ↦ ?_, fun v ↦ ?_⟩
  · obtain ⟨hvD, hv⟩ := allHold_append.1 hv
    obtain ⟨hvE, hvg⟩ := allHold_append.1 hv
    exact (ha.sound v hvD).binary (hb.sound v hvE) (Connective.allHold_gate.1 hvg)
  · obtain ⟨u, hvu, huD, hua⟩ := ha.complete v
    obtain ⟨w, huw, hwE, hwb⟩ := hb.complete u
    have hφa : a.holds w = φ.eval (Literal.holds v) :=
      (Literal.holds_congr huw ha.var_lt).symm.trans hua
    have hψb : b.holds w = ψ.eval (Literal.holds v) :=
      hwb.trans (Formula.eval_holds_congr hψ hvu).symm
    have hwu := agreeBelow_update k w (op.apply (a.holds w) (b.holds w))
    refine ⟨Function.update w k (op.apply (a.holds w) (b.holds w)), ?_, ?_, ?_⟩
    · exact hvu.trans ((huw.mono hnm).trans (hwu.mono (hnm.trans hmk)))
    · refine allHold_append.2 ⟨localBelow_allHold hD (huw.trans (hwu.mono hmk)) huD,
        allHold_append.2 ⟨localBelow_allHold hE hwu hwE, Connective.allHold_gate.2 (.of_eq ?_)⟩⟩
      rw [← Literal.holds_congr hwu hak, ← Literal.holds_congr hwu hb.var_lt, Literal.holds_pos,
        Function.update_self]
    · rw [Literal.holds_pos, Function.update_self, Formula.eval, hφa, hψb]

/-- A constant is named by a fresh variable. -/
theorem Emit.gives_constant (n : Nat) (b : Bool) : Emit.Gives (do
      let x ← fresh
      clause [⟨x, b⟩]
      return x.pos) n (Variable.pos n) (n + 1) [[⟨n, b⟩]] := by
  have hspan : max (n + 1) (span [⟨n, b⟩]) = n + 1 := by simp [span]
  have hunit := (gives_clause [⟨n, b⟩] (n + 1)).bind
    (f := fun _ ↦ pure (Variable.pos n)) (gives_pure (Variable.pos n) _)
  rw [hspan] at hunit
  exact (gives_fresh n).bind hunit

/-- The name of a formula that is named when `n` variables are known. A constant or a connective
takes the first variable that is not known then, a connective after its operands took theirs. -/
def Formula.nameAt (n : Nat) : Formula Literal → Literal
  | top => Variable.pos n
  | bot => Variable.pos n
  | leaf l => l
  | neg φ => (φ.nameAt n).negate
  | binary _ φ ψ => Variable.pos (n + φ.gates + ψ.gates)

/-- The clauses that define the names in a formula that is named when `n` variables are known. -/
def Formula.defining (p : Polarity) (n : Nat) : Formula Literal → List Clause
  | top => [[Variable.pos n]]
  | bot => [[Variable.neg n]]
  | leaf _ => []
  | neg φ => φ.defining p.flip n
  | binary op φ ψ =>
    φ.defining (p.left op) n ++ (ψ.defining (p.right op) (n + φ.gates) ++
      op.gate p (Variable.pos (n + φ.gates + ψ.gates)) (φ.nameAt n) (ψ.nameAt (n + φ.gates)))

/-- The operands have their variables before the connective has its own. -/
theorem Formula.add_gates_binary {op : Connective} {φ ψ : Formula Literal} {n : Nat} :
    n + (binary op φ ψ).gates = n + φ.gates + ψ.gates + 1 := by
  simp only [gates, Nat.add_assoc]

/-- The second operand is named when the variables of the first one are known as well. -/
theorem Formula.var_lt_of_binary {op : Connective} {φ ψ : Formula Literal} {n : Nat}
    (h : ∀ l ∈ (binary op φ ψ).occurrences, l.var < n) :
    (∀ l ∈ φ.occurrences, l.var < n) ∧ (∀ l ∈ ψ.occurrences, l.var < n) ∧
      ∀ l ∈ ψ.occurrences, l.var < n + φ.gates := by
  obtain ⟨hφ, hψ⟩ := List.forall_mem_append.1 h
  exact ⟨hφ, hψ, fun l hl ↦ Nat.lt_add_right _ (hψ l hl)⟩

/-- The name lies among the variables that are known after the naming. -/
theorem Formula.var_nameAt_lt {φ : Formula Literal} {n : Nat}
    (hφ : ∀ l ∈ φ.occurrences, l.var < n) : (φ.nameAt n).var < n + φ.gates := by
  induction φ with
  | top | bot => exact Nat.lt_succ_self n
  | leaf l => exact hφ l (by simp [occurrences])
  | neg φ ih => exact ih hφ
  | binary op φ ψ =>
    rw [add_gates_binary]
    exact Nat.lt_succ_self _

/-- **The run of a naming.** Each constant and each connective makes one more variable known. -/
theorem Formula.gives_named (φ : Formula Literal) (p : Polarity) {n : Nat}
    (hφ : ∀ l ∈ φ.occurrences, l.var < n) :
    (φ.named p).Gives n (φ.nameAt n) (n + φ.gates) (φ.defining p n) := by
  induction φ generalizing p n with
  | top => exact Emit.gives_constant n true
  | bot => exact Emit.gives_constant n false
  | leaf l => exact Emit.gives_pure l n
  | neg φ ih => exact (ih p.flip hφ).map Literal.negate
  | binary op φ ψ ihφ ihψ =>
    obtain ⟨hφ, -, hψ⟩ := var_lt_of_binary hφ
    have hspan : ∀ c ∈ op.gate p (Variable.pos (n + φ.gates + ψ.gates)) (φ.nameAt n)
        (ψ.nameAt (n + φ.gates)), span c ≤ n + φ.gates + ψ.gates + 1 :=
      Connective.span_gate_le (Nat.lt_add_right _ (var_nameAt_lt hφ)) (var_nameAt_lt hψ)
    have hgate := (Emit.gives_clauses hspan).map fun _ ↦ Variable.pos (n + φ.gates + ψ.gates)
    rw [add_gates_binary]
    exact (ihφ (p.left op) hφ).bind ((ihψ (p.right op) hψ).bind ((Emit.gives_fresh _).bind hgate))

/-- **Naming.** Whatever the polarity, a name keeps its promise in every solution of its clauses,
and the known variables determine a solution where it has the value of the formula. -/
theorem Formula.naming_defining (φ : Formula Literal) (p : Polarity) {n : Nat}
    (hφ : ∀ l ∈ φ.occurrences, l.var < n) :
    Naming p φ n (n + φ.gates) (φ.nameAt n) (φ.defining p n) := by
  induction φ generalizing p n with
  | top => exact .constant p n true fun _ ↦ rfl
  | bot => exact .constant p n false fun _ ↦ rfl
  | leaf l => exact .leaf p (hφ l (by simp [occurrences]))
  | neg φ ih => exact (ih p.flip hφ).neg
  | binary op φ ψ ihφ ihψ =>
    obtain ⟨hφ, hψ, hψ'⟩ := var_lt_of_binary hφ
    rw [add_gates_binary]
    exact (ihφ (p.left op) hφ).binary (ihψ (p.right op) hψ') hψ (Nat.le_add_right _ _)
      (Nat.le_add_right _ _) (φ.gives_named _ hφ).span_le (ψ.gives_named _ hψ').span_le

/-- What a run gives is a naming. -/
theorem Formula.naming (φ : Formula Literal) (p : Polarity) {n : Nat}
    (hφ : ∀ l ∈ φ.occurrences, l.var < n) :
    ∃ l m D, (φ.named p).Gives n l m D ∧ Naming p φ n m l D :=
  ⟨_, _, _, φ.gives_named p hφ, φ.naming_defining p hφ⟩

/-- An encoder that goes on with the name of a formula imposes what it says when the name is taken
for the formula. -/
theorem Encoder.Imposes.named {α : Type} {k : Nat} {a : α} {φ : Formula Literal}
    {f : Literal → Encoder α} {P : Literal → (Variable → Bool) → Prop}
    {Q : (Variable → Bool) → Prop} (hφ : ∀ l ∈ φ.occurrences, l.var < k)
    (h : ∀ n l, k ≤ n → l.var < n → (f l).Imposes n a (P l)) (hQ : LocalBelow k Q)
    (hPQ : ∀ l v, l.holds v = φ.eval (Literal.holds v) → (P l v ↔ Q v)) :
    Encoder.Imposes (ExceptT.lift (φ.named .both) >>= f) k a Q := by
  refine ⟨hQ, fun n hn ↦ ?_⟩
  obtain ⟨l, m, D, hD, hname⟩ := φ.naming .both fun l hl ↦ Nat.lt_of_lt_of_le (hφ l hl) hn
  obtain ⟨m', E, hE, hmean⟩ := (h m l (hn.trans hD.le) hname.var_lt).gives m (le_refl m)
  -- in every solution of its clauses the name stands for the formula
  have htied : ∀ v, AllHold D v → l.holds v = φ.eval (Literal.holds v) := fun v hv ↦
    Polarity.ties_both.1 (hname.sound v hv)
  refine ⟨m', D ++ E, gives_bind (gives_lift hD) hE, fun v hv ↦ ?_, fun v hv ↦ ?_⟩
  · obtain ⟨hvD, hvE⟩ := allHold_append.1 hv
    exact (hPQ l v (htied v hvD)).1 (hmean.sound v hvE)
  · obtain ⟨u, hvu, hu, -⟩ := hname.complete v
    obtain ⟨w, huw, hw⟩ := hmean.complete u
      ((hPQ l u (htied u hu)).2 (hQ (hvu.mono hn) hv))
    exact ⟨w, hvu.trans (huw.mono hD.le),
      allHold_append.2 ⟨localBelow_allHold hD.span_le huw hu, hw⟩⟩

/-- With the first `k` variables known, and maybe others, the encoder returns a name for each of
some formulas and imposes nothing. -/
def Encoder.Names (x : Encoder (List Literal)) (k : Nat) (φs : List (Formula Literal)) : Prop :=
  ∀ n, k ≤ n → ∃ ls m D, x.Gives n ls m D ∧ (Mean n D fun _ ↦ True) ∧
    ∀ v, AllHold D v → ls.map (Literal.holds v) = φs.map (Formula.eval (Literal.holds v))

/-- Formulas that are named one after the other all have names. -/
theorem Encoder.names_mapM {α : Type} {k : Nat} {as : List α}
    {f : α → Except Fault (Formula Literal)} {g : α → Formula Literal}
    (hf : ∀ a ∈ as, f a = .ok (g a)) (hvar : ∀ a ∈ as, ∀ l ∈ (g a).occurrences, l.var < k) :
    Encoder.Names (as.mapM fun a ↦ do
      let φ ← Encoder.ofExcept (f a)
      φ.named .both) k (as.map g) := by
  induction as with
  | nil =>
    exact fun n _ ↦ ⟨[], n, [], Encoder.gives_pure [] n, mean_nil n, fun _ _ ↦ rfl⟩
  | cons a as ih =>
    intro n hn
    rw [List.mapM_cons]
    obtain ⟨l, m, D, hD, hname⟩ :=
      (g a).naming .both fun l hl ↦ Nat.lt_of_lt_of_le (hvar a (by simp) l hl) hn
    obtain ⟨ls, m', D', hD', hmean, hls⟩ :=
      ih (fun b hb ↦ hf b (by simp [hb])) (fun b hb ↦ hvar b (by simp [hb])) m (hn.trans hD.le)
    refine ⟨l :: ls, m', D ++ D', ?_, ?_, fun v hv ↦ ?_⟩
    · have htail := gives_bind hD' (f := fun ls ↦ pure (l :: ls)) (gives_pure (l :: ls) m')
      rw [List.append_nil] at htail
      exact gives_bind (gives_bind (gives_ofExcept (hf a (by simp)) n) (gives_lift hD)) htail
    · exact (hname.mean.append hD.span_le hmean hD.le (localBelow_const n True)).congr
        fun v ↦ and_self_iff
    · obtain ⟨hvD, hvD'⟩ := allHold_append.1 hv
      rw [List.map_cons, List.map_cons, List.map_cons, hls v hvD',
        Polarity.ties_both.1 (hname.sound v hvD)]

end Dialectical
