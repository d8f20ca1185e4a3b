import Dialectical.LinkType
import Dialectical.Proofs.Completions
import Dialectical.Proofs.Engines
import Dialectical.Proofs.FirstOccurrences
import Dialectical.Proofs.Sessions
import Dialectical.Processor
import Mathlib.Data.List.Nodup

/-!
# The types of links

A link is supporting if making its parent true never makes the condition of the child false, and
attacking if it never makes it true (`Framework.Supports`, `Framework.Attacks`). Both are statements
about all valuations, and what a solver is asked is whether there is a counterexample: the names of
the two instances of the condition, with the parent false and with the parent true, are assumed to
differ in one direction and then in the other. So the types that are computed are the types that the
links have, whichever models the engine chooses (`Framework.ensures_linkTypes`).

A condition lists its arguments once each, so no link is listed twice (`Framework.nodup_links`) and
each has one type.
-/

namespace Dialectical

open Act Clause

namespace Framework

variable {F : Framework} {e : Engine} {r a : Nat}

/-! ### Types -/

/-- Making the parent true never makes the condition of the child false. -/
def Supports (F : Framework) (r a : Nat) : Prop :=
  ∀ v : Nat → Bool, (F.condition a).eval (Function.update v r false) = true →
    (F.condition a).eval (Function.update v r true) = true

/-- Making the parent true never makes the condition of the child true. -/
def Attacks (F : Framework) (r a : Nat) : Prop :=
  ∀ v : Nat → Bool, (F.condition a).eval (Function.update v r true) = true →
    (F.condition a).eval (Function.update v r false) = true

open Classical in
/-- The type that a link has. -/
noncomputable def typeOf (F : Framework) (l : Link) : LinkType :=
  .ofProperties (decide (F.Supports l.parent l.child)) (decide (F.Attacks l.parent l.child))

/-- The type is computed from the two properties, in whatever way these are decided. -/
theorem typeOf_eq {b c : Bool} (hb : b = true ↔ F.Supports r a) (hc : c = true ↔ F.Attacks r a) :
    F.typeOf ⟨r, a⟩ = .ofProperties b c := by
  classical
  rw [typeOf]
  congr 1
  · rw [Bool.eq_iff_iff, decide_eq_true_iff, hb]
  · rw [Bool.eq_iff_iff, decide_eq_true_iff, hc]

/-- A type tells if the link is supporting, and if it is attacking. -/
theorem isSupporting_typeOf : (F.typeOf ⟨r, a⟩).isSupporting = true ↔ F.Supports r a := by
  by_cases hs : F.Supports r a <;> by_cases ha : F.Attacks r a <;>
    simp [typeOf, LinkType.ofProperties, LinkType.isSupporting, hs, ha]

theorem isAttacking_typeOf : (F.typeOf ⟨r, a⟩).isAttacking = true ↔ F.Attacks r a := by
  by_cases hs : F.Supports r a <;> by_cases ha : F.Attacks r a <;>
    simp [typeOf, LinkType.ofProperties, LinkType.isAttacking, hs, ha]

/-- All links with the types that they have, in the order of the links. -/
noncomputable def allTypes (F : Framework) : LinkTypes := F.links.map fun l ↦ (l, F.typeOf l)

/-- Every link finds its type. -/
theorem lookup_allTypes {l : Link} (h : l ∈ F.links) : F.allTypes.lookup l = some (F.typeOf l) := by
  rw [allTypes]
  generalize F.links = ls at h
  induction ls with
  | nil => exact absurd h List.not_mem_nil
  | cons l' ls ih =>
    rw [List.map_cons, List.lookup_cons]
    by_cases heq : l = l'
    · simp [heq]
    · rw [beq_eq_false_iff_ne.2 heq]
      exact ih ((List.mem_cons.1 h).resolve_left heq)

/-- An argument that occurs twice in a condition is one parent. -/
theorem nodup_parents (F : Framework) (a : Nat) : (F.parents a).Nodup := nodup_eraseDups _

/-- **No link is listed twice.** -/
theorem nodup_links (F : Framework) : F.links.Nodup := by
  refine List.nodup_flatMap.2 ⟨fun a _ ↦ ?_, List.nodup_range.imp fun {a b} hne l hl hl' ↦ hne ?_⟩
  · exact (F.nodup_parents a).map fun r r' h ↦ congrArg Link.parent h
  · obtain ⟨r, -, rfl⟩ := List.mem_map.1 hl
    obtain ⟨r', -, hlink⟩ := List.mem_map.1 hl'
    exact (congrArg Link.child hlink).symm

/-! ### One link -/

/-- An instance of a condition has the value that the condition has with the parent set. -/
theorem eval_instanceOf (c : Condition) (r : Nat) (b : Bool) (v : Variable → Bool) :
    (instanceOf c r b).eval (Literal.holds v) = c.eval (Function.update v r b) := by
  rw [instanceOf, Formula.eval_map, Formula.eval_substitute]
  refine Formula.eval_congr _ fun d _ ↦ ?_
  by_cases hd : d = r
  · subst hd
    simp
  · rw [if_neg hd, Function.update_of_ne hd]
    simp [Literal.holds]

theorem var_lt_of_mem_instanceOf {b : Bool} {l : Literal}
    (h : l ∈ (instanceOf (F.condition a) r b).occurrences) : l.var < F.size := by
  rw [instanceOf, Formula.occurrences_map] at h
  obtain ⟨d, hd, rfl⟩ := List.mem_map.1 h
  exact (lt_size_of_mem_occurrences (Formula.occurrences_substitute hd).1).1

/-- Whether a formula can be true while another one is false, asked by their names. -/
theorem ensures_differ (he : e.Sound) {s : Session} {n : Nat} {l l' : Literal}
    {φ ψ : Formula Literal} (hs : s.Means n fun _ ↦ True)
    (hφ : ∀ l ∈ φ.occurrences, l.var < n) (hψ : ∀ l ∈ ψ.occurrences, l.var < n)
    (hl : ∀ v, AllHold s.solver.clauses v → l.holds v = φ.eval (Literal.holds v))
    (hl' : ∀ v, AllHold s.solver.clauses v → l'.holds v = ψ.eval (Literal.holds v)) :
    Session.satisfiable.Ensures e { s with pending := s.pending ++ [l, l'.negate] }
      (fun b s' ↦ (b ↔ ∃ v, φ.eval (Literal.holds v) = true ∧ ψ.eval (Literal.holds v) = false) ∧
        s'.solver.clauses = s.solver.clauses ∧ s'.Means n fun _ ↦ True)
      fun s' ↦ s'.Means n fun _ ↦ True := by
  have hlocal : LocalBelow n fun v ↦
      φ.eval (Literal.holds v) = true ∧ ψ.eval (Literal.holds v) = false := fun v w hvw h ↦
    ⟨(Formula.eval_holds_congr hφ hvw).symm.trans h.1,
      (Formula.eval_holds_congr hψ hvw).symm.trans h.2⟩
  refine (Session.ensures_satisfiable he).mono ?_ fun s' hs' ↦ hs.asked ⟨hs'.solver, hs'.pending⟩
  rintro b s' ⟨hb, hs'⟩
  refine ⟨?_, hs'.solver.clauses_eq, hs.asked ⟨hs'.solver, hs'.pending⟩⟩
  have hiff := hs.exists_iff hlocal
  simp only [true_and] at hiff
  rw [hb, ← hiff, hs.pending]
  refine exists_congr fun v ↦ and_congr_right fun hv ↦ ?_
  simp [Literal.holds_negate, hl v hv, hl' v hv]

/-- **The type of a link** is found in a session that says nothing of the arguments. -/
theorem ensures_linkType (he : e.Sound) {s : Session} (hs : s.Means F.size fun _ ↦ True) :
    (linkType (F.condition a) r a).Ensures e s
      (fun p s' ↦ p = (⟨r, a⟩, F.typeOf ⟨r, a⟩) ∧ s'.Means F.size fun _ ↦ True)
      fun s' ↦ s'.Means F.size fun _ ↦ True := by
  have hvar : ∀ b, ∀ l ∈ (instanceOf (F.condition a) r b).occurrences, l.var < F.size :=
    fun b l ↦ var_lt_of_mem_instanceOf
  refine (hs.ensures_named (hvar false)).bind ?_
  rintro l s₁ ⟨hs₁, hl⟩
  refine (hs₁.ensures_named (hvar true)).bind ?_
  rintro l' s₂ ⟨hs₂, hl'⟩
  -- the second name does not change what the first one stands for
  have hfalse := fun v hv ↦ (hl v (hl' v hv).1).2
  have htrue := fun v hv ↦ (hl' v hv).2
  rw [Session.assume, ensures_modify_bind]
  refine (ensures_differ he hs₂ (hvar false) (hvar true) hfalse htrue).bind ?_
  rintro b s₃ ⟨hb, hclauses, hs₃⟩
  rw [Session.assume, ensures_modify_bind]
  refine (ensures_differ he hs₃ (hvar true) (hvar false) (hclauses ▸ htrue)
    (hclauses ▸ hfalse)).bind ?_
  rintro c s₄ ⟨hc, -, hs₄⟩
  simp only [eval_instanceOf] at hb hc
  have hsupports : (!b) = true ↔ F.Supports r a := by
    rw [Bool.not_eq_true', ← Bool.not_eq_true, hb, Supports]
    push Not
    simp only [Bool.not_eq_false]
  have hattacks : (!c) = true ↔ F.Attacks r a := by
    rw [Bool.not_eq_true', ← Bool.not_eq_true, hc, Attacks]
    push Not
    simp only [Bool.not_eq_false]
  exact Ensures.log_bind (ensures_pure.2 ⟨by rw [typeOf_eq hsupports hattacks], hs₄⟩)

/-! ### All links -/

variable {σ : Type} {s : σ}

/-- The types of the links to one argument, found in one session. -/
theorem ensures_linkTypesTo (he : e.Sound) (a : Nat) : (F.linkTypesTo a).Ensures e s
    (fun types s' ↦ types = (F.parents a).map (fun r ↦ (⟨r, a⟩, F.typeOf ⟨r, a⟩)) ∧ s' = s)
    fun s' ↦ s' = s := by
  rw [linkTypesTo]
  split
  next hnil => exact ensures_pure.2 ⟨by rw [hnil]; rfl, rfl⟩
  next =>
    refine Session.ensures_during fun t ht ↦ ?_
    refine (ensures_mapM (fun r _ t ht ↦ ensures_linkType he ht) ht).mono ?_ fun _ _ ↦ rfl
    exact fun types t' h ↦ ⟨h.1, rfl⟩

/-- **The types that are computed are the types that the links have.** -/
theorem ensures_linkTypes (he : e.Sound) : F.linkTypes.Ensures e s
    (fun types s' ↦ types = F.allTypes ∧ s' = s) fun s' ↦ s' = s := by
  refine (ensures_mapM (I := fun s' ↦ s' = s)
    (r := fun a ↦ (F.parents a).map fun r ↦ (⟨r, a⟩, F.typeOf ⟨r, a⟩)) ?_ rfl).bind ?_
  · rintro a - _ rfl
    exact ensures_linkTypesTo he a
  · rintro types _ ⟨rfl, rfl⟩
    refine ensures_pure.2 ⟨?_, rfl⟩
    rw [allTypes, links, List.map_flatMap, List.flatMap_def]
    simp only [List.map_map]
    rfl

/-- **Every link has one type, and it is the right one.** An engine that answers every call, and
truly, gives a list of the links, each once, with their types: a link is supporting if and only if
making its parent true never makes the condition of its child false, and attacking if and only if it
never makes it true. -/
theorem linkTypes_classify (F : Framework) (e : Engine) (he : e.Correct) (s : σ) (j : Journal) :
    ∃ types j', F.linkTypes.run e s j = ⟨.ok types, s, j'⟩ ∧
      types.map Prod.fst = F.links ∧ F.links.Nodup ∧
      ∀ r a t, (⟨r, a⟩, t) ∈ types →
        (t.isSupporting = true ↔ F.Supports r a) ∧ (t.isAttacking = true ↔ F.Attacks r a) := by
  obtain ⟨_, _, j', hrun, rfl, rfl⟩ :=
    (ensures_linkTypes (F := F) (s := s) he.sound).exists_ok he.decisive j
  refine ⟨_, j', hrun, ?_, F.nodup_links, fun r a t ht ↦ ?_⟩
  · rw [allTypes, List.map_map]
    exact List.map_id _
  · obtain ⟨l, -, hl⟩ := List.mem_map.1 ht
    obtain ⟨rfl, rfl⟩ := Prod.mk.inj hl
    exact ⟨isSupporting_typeOf, isAttacking_typeOf⟩

/-- An argument that is against itself, in a condition with a constant, and one that is accepted if
it agrees with the first. -/
def selfOpposition : Framework where
  labels := ⟨["x", "y"], by decide⟩
  conditions := [.binary .or (.neg (.leaf 0)) .bot, .binary .iff (.leaf 0) (.leaf 1)]
  length_conditions := rfl
  lt_size_of_mem := by decide

/-- The first argument attacks itself; the link of the second one to itself is of neither kind. -/
theorem linkTypes_classify_selfOpposition :
    Engine.exhaustive.Correct ∧
    ∃ types j', selfOpposition.linkTypes.run .exhaustive () .empty = ⟨.ok types, (), j'⟩ ∧
      types.map Prod.fst = [⟨0, 0⟩, ⟨0, 1⟩, ⟨1, 1⟩] ∧
      (∀ t, (⟨0, 0⟩, t) ∈ types → t.isAttacking = true ∧ t.isSupporting ≠ true) ∧
      ∀ t, (⟨1, 1⟩, t) ∈ types → t.isAttacking ≠ true ∧ t.isSupporting ≠ true := by
  have he := Engine.exhaustive_correct
  obtain ⟨types, j', hrun, hlinks, -, htypes⟩ :=
    linkTypes_classify selfOpposition .exhaustive he () .empty
  have hattacks : selfOpposition.Attacks 0 0 := fun v _ ↦ rfl
  have hsupports : ¬selfOpposition.Supports 0 0 := fun h ↦
    absurd (h (fun _ ↦ true) rfl) (by decide)
  have hneither : ¬selfOpposition.Attacks 1 1 ∧ ¬selfOpposition.Supports 1 1 :=
    ⟨fun h ↦ absurd (h (fun _ ↦ true) rfl) (by decide),
      fun h ↦ absurd (h (fun _ ↦ false) rfl) (by decide)⟩
  refine ⟨he, types, j', hrun, hlinks.trans (by decide), fun t ht ↦ ?_, fun t ht ↦ ?_⟩
  · exact ⟨(htypes 0 0 t ht).2.2 hattacks, mt (htypes 0 0 t ht).1.1 hsupports⟩
  · exact ⟨mt (htypes 1 1 t ht).2.1 hneither.1, mt (htypes 1 1 t ht).1.1 hneither.2⟩

end Framework

/-- The types of the links are kept once they are known. -/
theorem ensures_keptLinkTypes {F : Framework} {e : Engine} (he : e.Sound)
    {types? : Option LinkTypes} (h : ∀ types ∈ types?, types = F.allTypes) :
    (keptLinkTypes F).Ensures e types?
      (fun types types'? ↦ types = F.allTypes ∧ ∀ types ∈ types'?, types = F.allTypes)
      fun types'? ↦ ∀ types ∈ types'?, types = F.allTypes := by
  rw [keptLinkTypes, ensures_get_bind]
  cases types? with
  | some types => exact ensures_pure.2 ⟨h types rfl, h⟩
  | none =>
    refine ((Framework.ensures_linkTypes he).weakenFault ?_).bind ?_
    · rintro _ rfl
      exact h
    · rintro types _ ⟨rfl, rfl⟩
      refine Ensures.log_bind ?_
      rw [ensures_modify_bind]
      exact ensures_pure.2 ⟨rfl, by simp⟩

end Dialectical
