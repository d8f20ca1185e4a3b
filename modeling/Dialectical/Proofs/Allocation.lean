import Dialectical.Proofs.Completeness
import Dialectical.Proofs.Freshness
import Dialectical.Proofs.LinkTypes
import Mathlib.Data.List.Range
import Std.Data.HashMap.Lemmas

/-!
# Atoms and other variables

The atoms of a framework are the first variables, each of them once: two for each argument, and one
for each link (`Atoms.ofArguments_eq`, `Atoms.mapM_link`). So a variable tells what it stands for,
and one beyond the atoms stands for nothing.

A session for the framework makes room for the atoms first. From then on no request and no naming of
a formula makes a variable that was known before (`Session.Step.allocates_carryOut`), in whatever
order they come. Every variable that is made is beyond the atoms, and an interpretation that is read
off some variables does not depend on it (`Atoms.separate_from_auxiliaries`).
-/

namespace Dialectical

open Act Clause

/-! ### Atoms -/

deriving instance Hashable for Link

namespace Atoms

variable {A : Atoms} {F : Framework} {a r s : Nat} {b : Bool} {v : Variable}

/-- The atoms of the arguments are the first ones. -/
theorem ofArguments_eq (A : Atoms) : A.ofArguments = List.range (2 * A.size) := by
  rw [ofArguments]
  generalize A.size = n
  induction n with
  | zero => rfl
  | succ n ih =>
    rw [List.range_succ, List.flatMap_append, ih, Nat.mul_succ, List.range_succ, List.range_succ,
      List.append_assoc]
    rfl

/-- The atom of a link is at its place after the argument atoms. -/
theorem link_eq_idxOf (hA : A.links.Nodup) {l : Link} (hl : l ∈ A.links) :
    A.link l.parent l.child = .ok (2 * A.size + A.links.idxOf l) := by
  obtain ⟨hlink, i, hi, hatom⟩ := link_eq hl
  obtain ⟨hlt, hl⟩ := List.getElem?_eq_some_iff.1 hi
  rw [hlink, hatom, ← hA.idxOf_getElem i hlt, hl]

/-- The atom of a link is beyond those of the arguments. -/
theorem le_of_link_eq_ok (h : A.link r s = .ok v) : 2 * A.size ≤ v := by
  rw [link, link?] at h
  cases hid : A.links.idxOf? ⟨r, s⟩ with
  | none =>
    rw [hid] at h
    cases h
  | some i =>
    rw [hid] at h
    exact Except.ok.inj h ▸ Nat.le_add_right _ i

/-- The atoms of the links follow, in order. -/
theorem mapM_link (hA : A.links.Nodup) : A.links.mapM (fun l ↦ A.link l.parent l.child) =
    .ok ((List.range A.links.length).map (2 * A.size + ·)) := by
  have hplaces : A.links.map A.links.idxOf = List.range A.links.length := by
    refine List.ext_getElem (by simp) fun i hi _ ↦ ?_
    rw [List.getElem_map, hA.idxOf_getElem, List.getElem_range]
  rw [← hplaces, List.map_map]
  exact mapM_eq_ok fun l hl ↦ link_eq_idxOf hA hl

/-- A variable beyond the argument atoms belongs to no argument. -/
theorem argument?_eq_none (hv : 2 * A.size ≤ v) : A.argument? v = none :=
  if_neg (Nat.not_lt.2 hv)

/-- A variable that belongs to no argument is passed over. -/
theorem interpretation_of_argument?_eq_none (h : A.argument? v = none) (vs ws : List Variable) :
    A.interpretation (vs ++ v :: ws) = A.interpretation (vs ++ ws) := by
  rw [interpretation, interpretation, List.foldl_append, List.foldl_append, List.foldl_cons, h]

/-- The links with their atoms, in order. -/
def entries (A : Atoms) : List (Link × Variable) :=
  A.links.zipIdx.map fun p ↦ (p.1, 2 * A.size + p.2)

/-- The atoms of the links in a table. -/
def table (A : Atoms) : Std.HashMap Link Variable := .ofList A.entries

/-- The entries are about the links, in order. -/
theorem map_fst_entries (A : Atoms) : A.entries.map Prod.fst = A.links := by
  simp [entries, Function.comp_def]

/-- So no two entries are about the same link. -/
theorem pairwise_entries (hA : A.links.Nodup) :
    A.entries.Pairwise fun p q ↦ (p.1 == q.1) = false := by
  rw [← map_fst_entries, List.Nodup, List.pairwise_map] at hA
  exact hA.imp fun hne ↦ beq_eq_false_iff_ne.2 hne

/-- **A table answers the same**, and has one entry for each link, since no link is listed twice. -/
theorem getElem?_table (hA : A.links.Nodup) (r s : Nat) :
    A.table[(⟨r, s⟩ : Link)]? = A.link? r s := by
  rw [link?]
  cases hid : A.links.idxOf? ⟨r, s⟩ with
  | none =>
    refine Std.HashMap.getElem?_ofList_of_contains_eq_false ?_
    rw [map_fst_entries, List.contains_eq_mem, decide_eq_false_iff_not]
    exact List.idxOf?_eq_none_iff.1 hid
  | some i =>
    obtain ⟨hlt, hi, -⟩ := List.idxOf?_eq_some_iff.1 hid
    refine Std.HashMap.getElem?_ofList_of_mem BEq.rfl (pairwise_entries hA) ?_
    refine List.mem_map.2 ⟨(⟨r, s⟩, i), ?_, rfl⟩
    exact List.mem_zipIdx_iff_getElem?.2 (List.getElem?_eq_some_iff.2 ⟨hlt, hi⟩)

/-- The table is as large as the list of the links. -/
theorem size_table (hA : A.links.Nodup) : A.table.size = A.links.length := by
  rw [table, Std.HashMap.size_ofList (pairwise_entries hA), entries, List.length_map,
    List.length_zipIdx]

end Atoms

/-! ### Variables that are made -/

namespace Directive

/-- The variables that are made by some requests of an encoding: each of them is reserved alone. -/
def created (ds : List Directive) : List Variable :=
  ds.filterMap fun
    | reserve (x + 1) => some x
    | _ => none

/-- What is made is made by one part of the requests or by the other. -/
theorem created_append (ds ds' : List Directive) :
    created (ds ++ ds') = created ds ++ created ds' :=
  List.filterMap_append

end Directive

namespace Emit

variable {α β : Type}

/-- No variable is forgotten, and those that are made were not known before. -/
def Extends (x : Emit α) : Prop :=
  ∀ n, n ≤ (x.run n).known ∧ ∀ y ∈ Directive.created (x.run n).directives, n ≤ y

theorem extends_pure (a : α) : (pure a : Emit α).Extends := fun n ↦
  ⟨le_refl n, fun _ hy ↦ absurd hy List.not_mem_nil⟩

/-- A new variable is the first one that was not known. -/
theorem extends_fresh : fresh.Extends := fun n ↦
  ⟨Nat.le_succ n, fun _ hy ↦ (List.mem_singleton.1 hy).ge⟩

theorem extends_clause (c : Clause) : (clause c).Extends := fun n ↦
  ⟨le_max_left n _, fun _ hy ↦ absurd hy List.not_mem_nil⟩

/-- **Sequencing.** The second part knows all that the first part knew, so its variables are new to
both. -/
theorem Extends.bind {x : Emit α} {f : α → Emit β} (hx : x.Extends) (hf : ∀ a, (f a).Extends) :
    (x >>= f).Extends := by
  intro n
  obtain ⟨hknown, hcreated⟩ := hx n
  obtain ⟨hknown', hcreated'⟩ := hf (x.run n).result (x.run n).known
  refine ⟨hknown.trans hknown', fun y hy ↦ ?_⟩
  rw [run_bind, Directive.created_append] at hy
  rcases List.mem_append.1 hy with hy | hy
  · exact hcreated y hy
  · exact hknown.trans (hcreated' y hy)

theorem Extends.map {x : Emit α} (hx : x.Extends) (f : α → β) : (f <$> x).Extends := by
  rw [map_eq_pure_bind]
  exact hx.bind fun a ↦ extends_pure (f a)

theorem extends_clauses (cs : List Clause) : (clauses cs).Extends := by
  induction cs with
  | nil => exact extends_pure ()
  | cons c cs ih => exact (extends_clause c).bind fun _ ↦ ih

/-- Clauses make no variable. -/
theorem created_clauses (cs : List Clause) (n : Nat) :
    Directive.created ((clauses cs).run n).directives = [] := by
  induction cs generalizing n with
  | nil => rfl
  | cons c cs ih => exact ih _

end Emit

/-- **Naming a formula makes variables that were not known.** Nothing is said of the literals that
the formula is over. -/
theorem Formula.extends_named (φ : Formula Literal) (p : Polarity) : (φ.named p).Extends := by
  induction φ generalizing p with
  | top => exact Emit.extends_fresh.bind fun n ↦
      (Emit.extends_clause [n.pos]).bind fun _ ↦ Emit.extends_pure n.pos
  | bot => exact Emit.extends_fresh.bind fun n ↦
      (Emit.extends_clause [n.neg]).bind fun _ ↦ Emit.extends_pure n.pos
  | leaf l => exact Emit.extends_pure l
  | neg φ ih => exact (ih p.flip).map Literal.negate
  | binary op φ ψ ihφ ihψ =>
    exact (ihφ (p.left op)).bind fun a ↦ (ihψ (p.right op)).bind fun b ↦
      Emit.extends_fresh.bind fun n ↦
        (Emit.extends_clauses (op.gate p n.pos a b)).bind fun _ ↦ Emit.extends_pure n.pos

/-- Over known literals there is one new variable for each constant and each connective, and they
are made in order. -/
theorem Formula.created_named (φ : Formula Literal) (p : Polarity) {n : Nat}
    (hφ : ∀ l ∈ φ.occurrences, l.var < n) :
    Directive.created ((φ.named p).run n).directives = List.range' n φ.gates := by
  induction φ generalizing p n with
  | top | bot | leaf => rfl
  | neg φ ih =>
    rw [named, map_eq_pure_bind, Emit.run_bind, Directive.created_append, ih p.flip hφ]
    exact List.append_nil _
  | binary op φ ψ ihφ ihψ =>
    obtain ⟨hφ, -, hψ⟩ := var_lt_of_binary hφ
    have hknown := (φ.gives_named (p.left op) hφ).known
    have hknown' := (ψ.gives_named (p.right op) hψ).known
    simp only [named, Emit.run_bind, Emit.run_fresh, Emit.run_pure, Directive.created_append,
      hknown, hknown', ihφ (p.left op) hφ, ihψ (p.right op) hψ, Emit.created_clauses,
      List.append_nil]
    rw [gates, Nat.add_assoc φ.gates, ← List.range'_append_1, List.range'_concat, Nat.one_mul]
    rfl

namespace Session

/-- A use of a session: a request, or the name of a formula. -/
inductive Step where
  | request (r : Request)
  | name (p : Polarity) (φ : Formula Literal)
  deriving DecidableEq, Repr

namespace Step

/-- Carries out a step, and tells the variables that were made. -/
def carryOut : Step → Act Session (List Variable)
  | request r => do return (← r.carryOut).toList
  | name p φ => do
    let s ← Act.get
    let _ ← perform (φ.named p : Encoder Literal)
    return Directive.created ((φ.named p).run s.solver.known).directives

/-- Carries out steps, each of them whatever became of those before. -/
def attemptAll (ks : List Step) : Act Session (List (Except Fault (List Variable))) :=
  ks.mapM fun k ↦ k.carryOut.attempt

end Step

/-- What an encoding asks for is carried out, and no variable is forgotten. -/
theorem ensures_perform_lift {α : Type} {e : Engine} {s : Session} {E : Session → Prop}
    (x : Emit α) : (perform (x : Encoder α)).Ensures e s
      (fun _ s' ↦ s.solver.known ≤ s'.solver.known) E := by
  rw [perform, ensures_get_bind]
  refine ensures_directs.bind ?_
  rintro - _ rfl
  exact ensures_ofExcept rfl (Directive.le_foldl_known _ _)

/-- **One step** forgets no variable, and makes none that was known. -/
theorem Step.allocates_carryOut (e : Engine) (k : Step) (s : Session) (j : Journal) :
    s.solver.known ≤ (k.carryOut.run e s j).state.solver.known ∧
      ∀ xs, (k.carryOut.run e s j).result = .ok xs → ∀ x ∈ xs, s.solver.known ≤ x := by
  cases k with
  | request r =>
    have hadvances := advances_carryOut e r s j
    rw [carryOut, run_bind]
    rcases hrun : r.carryOut.run e s j with ⟨fault | x?, s', i⟩ <;> rw [hrun] at hadvances
    · exact ⟨hadvances.known_le, fun xs hxs ↦ by cases hxs⟩
    · refine ⟨hadvances.known_le, fun xs hxs x hx ↦ ?_⟩
      obtain rfl := Except.ok.inj hxs
      exact (hadvances.created x (congrArg _ (Option.mem_toList.1 hx))).1
  | name p φ =>
    have hname : (name p φ).carryOut.Ensures e s (fun xs s' ↦ s.solver.known ≤ s'.solver.known ∧
        ∀ x ∈ xs, s.solver.known ≤ x) fun _ ↦ False := by
      rw [carryOut, ensures_get_bind]
      exact (ensures_perform_lift (φ.named p)).bind fun _ _ hknown ↦
        ensures_pure.2 ⟨hknown, (φ.extends_named p s.solver.known).2⟩
    obtain ⟨xs, s', i, hrun, hknown, hxs⟩ := hname.exists_run j
    rw [hrun]
    refine ⟨hknown, fun ys hys ↦ ?_⟩
    obtain rfl := Except.ok.inj hys
    exact hxs

/-- `n` variables are known, and all that were made are other ones. -/
structure MadeBeyond (n : Nat) (rs : List (Except Fault (List Variable))) (s : Session) :
    Prop where
  le_known : n ≤ s.solver.known
  le_made : ∀ xs, .ok xs ∈ rs → ∀ x ∈ xs, n ≤ x

/-- At the beginning nothing was made. -/
theorem madeBeyond_nil {s : Session} {n : Nat} (hs : n ≤ s.solver.known) : MadeBeyond n [] s :=
  ⟨hs, fun _ hxs ↦ absurd hxs List.not_mem_nil⟩

/-- **One step** keeps what was known and makes only variables beyond it. -/
theorem MadeBeyond.step {n : Nat} {rs : List (Except Fault (List Variable))} {s : Session}
    (h : MadeBeyond n rs s) (e : Engine) (k : Step) (j : Journal) :
    MadeBeyond n (rs ++ [(k.carryOut.run e s j).result]) (k.carryOut.run e s j).state := by
  obtain ⟨hknown, hmade⟩ := k.allocates_carryOut e s j
  refine ⟨h.le_known.trans hknown, fun xs hxs x hx ↦ ?_⟩
  rcases List.mem_append.1 hxs with hxs | hxs
  · exact h.le_made xs hxs x hx
  · exact h.le_known.trans (hmade xs (List.mem_singleton.1 hxs).symm x hx)

/-- **Any number of steps**, by induction on it. -/
theorem exists_run_steps {e : Engine} {s : Session} {n : Nat} (hs : n ≤ s.solver.known)
    (ks : List Step) (j : Journal) :
    ∃ rs s' i, (Step.attemptAll ks).run e s j = ⟨.ok rs, s', i⟩ ∧ MadeBeyond n rs s' :=
  exists_run_mapM_attempt_of (fun _ _ k j h ↦ h.step e k j) [] (madeBeyond_nil hs) ks j

end Session

/-! ### The atoms of a framework -/

/-- **Atoms are apart from each other and from all that is made later.**

* The atoms of the arguments and then those of the links are the variables below the number of
  atoms, each once. So they are pairwise different. A table of the link atoms has the same entries.
* A variable belongs to an argument as satisfied if and only if it is its one atom, and as
  unsatisfied if and only if it is its other atom. Link atoms and variables that are no atoms belong
  to no argument.
* In a session that is opened with room for the atoms, whatever the engine is and whatever is done
  there, every variable that is made for a request or for the name of a formula is beyond the atoms
  and belongs to no argument, and it makes no difference to the interpretation that is read off some
  variables.
-/
theorem Atoms.separate_from_auxiliaries (F : Framework) :
    (∃ vs, F.links.mapM (fun l ↦ (of F).link l.parent l.child) = .ok vs ∧
      (of F).ofArguments ++ vs = List.range (of F).count) ∧
    (∀ r s, (of F).table[(⟨r, s⟩ : Link)]? = (of F).link? r s) ∧
    (of F).count = 2 * F.size + (of F).table.size ∧
    (∀ v a, (of F).argument? v = some (a, true) ↔ a < F.size ∧ v = (of F).satisfied a) ∧
    (∀ v a, (of F).argument? v = some (a, false) ↔ a < F.size ∧ v = (of F).unsatisfied a) ∧
    (∀ r s v, (of F).link r s = .ok v → (of F).argument? v = none) ∧
    (∀ v, (of F).count ≤ v → (of F).argument? v = none) ∧
    ∀ (e : Engine) (ks : List Session.Step) (j : Journal), ∃ s₀ j₀ rs s i,
      (Session.acquire (of F).count).run e () j = ⟨.ok s₀, (), j₀⟩ ∧
      (Session.Step.attemptAll ks).run e s₀ j₀ = ⟨.ok rs, s, i⟩ ∧
      ∀ xs, .ok xs ∈ rs → ∀ x ∈ xs, (of F).count ≤ x ∧ (of F).argument? x = none ∧
        ∀ vs ws, (of F).interpretation (vs ++ x :: ws) = (of F).interpretation (vs ++ ws) := by
  have hA : (of F).links.Nodup := F.nodup_links
  have hauxiliary : ∀ v, (of F).count ≤ v → (of F).argument? v = none := fun v hv ↦
    argument?_eq_none ((two_mul_size_le_count _).trans hv)
  refine ⟨⟨_, mapM_link hA, ?_⟩, getElem?_table hA, ?_, fun v a ↦ argument?_eq_some_iff,
    fun v a ↦ argument?_eq_some_iff,
    fun r s v hv ↦ argument?_eq_none (le_of_link_eq_ok hv), hauxiliary, fun e ks j ↦ ?_⟩
  · rw [ofArguments_eq, count, List.range_add]
  · rw [size_table hA]
    rfl
  · obtain ⟨s₀, _, j₀, hopen, hs₀⟩ :=
      (Session.ensures_acquire (e := e) (n := (of F).count) (E := fun _ ↦ False)).exists_run j
    obtain ⟨rs, s, i, hrun, hrs⟩ := Session.exists_run_steps hs₀.le_known ks j₀
    refine ⟨s₀, j₀, rs, s, i, hopen, hrun, fun xs hxs x hx ↦ ?_⟩
    have hx := hrs.le_made xs hxs x hx
    exact ⟨hx, hauxiliary x hx, interpretation_of_argument?_eq_none (hauxiliary x hx)⟩

end Dialectical
