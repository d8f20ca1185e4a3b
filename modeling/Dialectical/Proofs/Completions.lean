import Dialectical.Encoding.ConflictFree
import Dialectical.Proofs.Encoders
import Dialectical.Proofs.Operator
import Dialectical.Proofs.Refinement

/-!
# The encoding of conflict-freeness

A valuation of the atoms of a framework says two things: its argument atoms stand for an
interpretation, and its link atoms give every argument a valuation of its parents
(`Setting.seen`). The encoding asks that these are completions of the interpretation that give the
conditions of the decided arguments their values (`Setting.Shows`). So its models are the
conflict-free interpretations (`Setting.exists_shows_iff`), each with a choice of completions, and
**every** choice is there (`Setting.shows_valuation`).

The choice is free for each argument apart, since a parent has one link atom per child. This is what
makes it possible to ask, in the same session, which values a condition can take.
-/

namespace Dialectical

open Clause

/-! ### Links and their atoms -/

namespace Framework

variable {F : Framework} {a r : Nat}

/-- The links of a framework are the occurrences in its conditions. -/
theorem link_mem_links : (⟨r, a⟩ : Link) ∈ F.links ↔ r ∈ (F.condition a).occurrences := by
  rw [mem_links, mem_parents]
  exact and_iff_right_of_imp fun h ↦ (lt_size_of_mem_occurrences h).2

/-- The children of an argument are those whose conditions mention it. -/
theorem mem_children_iff {c : Nat} : c ∈ F.children a ↔ a ∈ (F.condition c).occurrences := by
  rw [mem_children, mem_parents]
  exact and_iff_right_of_imp fun h ↦ (lt_size_of_mem_occurrences h).2

end Framework

namespace Atoms

variable {A : Atoms} {r a : Nat}

/-- The atom of a link. -/
def linkAtom (A : Atoms) (r a : Nat) : Variable := (A.link? r a).getD 0

/-- A link has the atom of its place in the list, after the atoms of all arguments. -/
theorem link_eq (h : ⟨r, a⟩ ∈ A.links) :
    A.link r a = .ok (A.linkAtom r a) ∧
      ∃ i, A.links[i]? = some ⟨r, a⟩ ∧ A.linkAtom r a = 2 * A.size + i := by
  obtain ⟨i, hi⟩ := Option.isSome_iff_exists.1 (List.isSome_idxOf?.2 h)
  have hlink : A.link? r a = some (2 * A.size + i) := by rw [link?, hi, Option.map_some]
  obtain ⟨hlt, hget, -⟩ := List.idxOf?_eq_some_iff.1 hi
  refine ⟨by rw [link, linkAtom, hlink, Option.getD_some], i, ?_, ?_⟩
  · exact List.getElem?_eq_some_iff.2 ⟨hlt, hget⟩
  · rw [linkAtom, hlink, Option.getD_some]

/-- Atoms are below the number of atoms; for arguments see `atom_lt_count`. -/
theorem linkAtom_lt (h : ⟨r, a⟩ ∈ A.links) : A.linkAtom r a < A.count := by
  obtain ⟨-, i, hi, hatom⟩ := link_eq h
  rw [hatom, count]
  exact Nat.add_lt_add_left (List.getElem?_eq_some_iff.1 hi).1 _

theorem two_mul_size_le_count (A : Atoms) : 2 * A.size ≤ A.count := Nat.le_add_right _ _

theorem atom_lt_count {b : Bool} (ha : a < A.size) : A.atom a b < A.count :=
  Nat.lt_of_lt_of_le (atom_lt ha) A.two_mul_size_le_count

/-- Clauses over the argument atoms can be added to every session that has them. -/
theorem Selects.imposes {cs : List Clause} {B : Set Interpretation} (h : A.Selects cs B) :
    (Encoder.clauses cs).Imposes A.count () (AllHold cs) :=
  Encoder.imposes_clauses fun c hc ↦ (h.span_le c hc).trans A.two_mul_size_le_count

/-- The valuation whose argument atoms stand for an interpretation, and whose link atoms give each
argument a valuation of its parents. -/
def valuation (A : Atoms) (I : Interpretation) (L : Nat → Nat → Bool) (x : Variable) : Bool :=
  if x < 2 * A.size then decide (I.Decides (x / 2) (x % 2 == 0))
  else match A.links[x - 2 * A.size]? with
    | some l => L l.child l.parent
    | none => false

/-- Its argument atoms do stand for the interpretation. -/
theorem encodes_valuation {I : Interpretation} (hI : I.size = A.size) (L : Nat → Nat → Bool) :
    A.Encodes (A.valuation I L) I := by
  refine ⟨hI, fun a b ha ↦ ?_⟩
  have hatom : A.argument? (A.atom a b) = some (a, b) := argument?_eq_some_iff.2 ⟨ha, rfl⟩
  rw [argument?, if_pos (atom_lt ha), Option.some.injEq, Prod.mk.injEq] at hatom
  rw [valuation, if_pos (atom_lt ha), hatom.1, hatom.2, decide_eq_true_eq]

/-- And its link atoms show each argument the values that were chosen for it. -/
theorem valuation_linkAtom {I : Interpretation} {L : Nat → Nat → Bool} (h : ⟨r, a⟩ ∈ A.links) :
    A.valuation I L (A.linkAtom r a) = L a r := by
  obtain ⟨-, i, hi, hatom⟩ := link_eq h
  rw [valuation, hatom, if_neg (Nat.not_lt.2 (Nat.le_add_right _ _)), Nat.add_sub_cancel_left, hi]

end Atoms

/-- A formula all of whose leaves are replaced without a fault. -/
theorem Formula.traverse_eq_ok {α β ε : Type} {f : α → Except ε β} {g : α → β} {φ : Formula α}
    (h : ∀ a ∈ φ.occurrences, f a = .ok (g a)) : φ.traverse f = .ok (φ.map g) := by
  induction φ with
  | top | bot => rfl
  | leaf a => rw [traverse, h a (by simp [occurrences])]; rfl
  | neg φ ih => rw [traverse, ih h]; rfl
  | binary op φ ψ ihφ ihψ =>
    rw [traverse, ihφ fun a ha ↦ h a (by simp [occurrences, ha]),
      ihψ fun a ha ↦ h a (by simp [occurrences, ha])]
    rfl

/-! ### Settings -/

namespace Setting

variable {S : Setting} {v w : Variable → Bool} {I J : Interpretation} {a c r : Nat} {b : Bool}

/-- There are atoms for the arguments and the links of the framework. -/
structure Fits (S : Setting) : Prop where
  size_eq : S.atoms.size = S.framework.size
  links : S.framework.links ⊆ S.atoms.links

/-- The atoms that are made for a framework fit it. -/
theorem fits_of (F : Framework) : (of F).Fits := ⟨rfl, fun _ h ↦ h⟩

theorem Fits.link_mem (hS : S.Fits) (h : r ∈ (S.framework.condition a).occurrences) :
    (⟨r, a⟩ : Link) ∈ S.atoms.links :=
  hS.links (Framework.link_mem_links.2 h)

/-- The value of a parent as its child sees it. -/
def seen (S : Setting) (v : Variable → Bool) (a r : Nat) : Bool := v (S.atoms.linkAtom r a)

/-- The value of the condition of an argument on what it sees. -/
def verdict (S : Setting) (v : Variable → Bool) (a : Nat) : Bool :=
  (S.framework.condition a).eval (S.seen v a)

/-- The condition of an argument over its link atoms. -/
def linkedCondition (S : Setting) (a : Nat) : Formula Literal :=
  (S.framework.condition a).map fun r ↦ (S.atoms.linkAtom r a).pos

/-- Replacing the parents in a condition by their link atoms does not fail. -/
theorem Fits.linked_eq (hS : S.Fits) (a : Nat) : S.linked a = .ok (S.linkedCondition a) :=
  Formula.traverse_eq_ok fun r hr ↦ by rw [(Atoms.link_eq (hS.link_mem hr)).1]; rfl

/-- The condition over its link atoms has the value that the argument arrives at. -/
theorem eval_linkedCondition (S : Setting) (v : Variable → Bool) (a : Nat) :
    (S.linkedCondition a).eval (Literal.holds v) = S.verdict v a := by
  rw [linkedCondition, Formula.eval_map]
  exact Formula.eval_congr _ fun r _ ↦ by simp [Literal.holds, seen]

theorem Fits.var_lt_count (hS : S.Fits) :
    ∀ l ∈ (S.linkedCondition a).occurrences, l.var < S.atoms.count := by
  intro l hl
  rw [linkedCondition, Formula.occurrences_map] at hl
  obtain ⟨r, hr, rfl⟩ := List.mem_map.1 hl
  exact Atoms.linkAtom_lt (hS.link_mem hr)

theorem Fits.seen_eq (hS : S.Fits) (h : r ∈ (S.framework.condition a).occurrences)
    (hvw : AgreeBelow S.atoms.count v w) : S.seen v a r = S.seen w a r :=
  hvw _ (Atoms.linkAtom_lt (hS.link_mem h))

/-- What an argument sees and arrives at depends on the atoms only. -/
theorem Fits.verdict_eq (hS : S.Fits) (hvw : AgreeBelow S.atoms.count v w) (a : Nat) :
    S.verdict v a = S.verdict w a :=
  Formula.eval_congr _ fun _ hr ↦ hS.seen_eq hr hvw

theorem Fits.localBelow_verdict (hS : S.Fits) (a : Nat) (b : Bool) :
    LocalBelow S.atoms.count fun v ↦ S.verdict v a = b :=
  fun _ _ hvw h ↦ (hS.verdict_eq hvw a).symm.trans h

/-! ### Completions -/

/-- An argument sees the values of its decided parents. -/
def SeesDecided (S : Setting) (I : Interpretation) (a : Nat) (v : Variable → Bool) : Prop :=
  ∀ r ∈ S.framework.parents a, ∀ b, I.Decides r b → S.seen v a r = b

/-- What an argument sees is a completion, as far as its condition looks. -/
theorem SeesDecided.exists_completion (h : S.SeesDecided I a v) :
    ∃ w, I.CompletedBy w ∧ (S.framework.condition a).eval w = S.verdict v a :=
  Framework.exists_completion h

/-- The valuation shows that an interpretation is conflict-free: the argument atoms stand for it,
decided arguments are seen as they are, and on what they see their conditions have their values. -/
structure Shows (S : Setting) (v : Variable → Bool) (I : Interpretation) : Prop where
  encodes : S.atoms.Encodes v I
  sees : ∀ a b, I.Decides a b → ∀ c ∈ S.framework.children a, S.seen v c a = b
  verdict_eq : ∀ a b, I.Decides a b → S.verdict v a = b

/-- Seen by its children is seen by a child. -/
theorem Shows.seesDecided (h : S.Shows v I) (a : Nat) : S.SeesDecided I a v := fun r hr b hb ↦
  h.sees r b hb a (Framework.mem_children_iff.2 (Framework.mem_parents.1 hr))

/-- On the values that were chosen for it an argument arrives at the value of its condition there.
-/
theorem Fits.verdict_valuation (hS : S.Fits) (I : Interpretation) (L : Nat → Nat → Bool) (a : Nat) :
    S.verdict (S.atoms.valuation I L) a = (S.framework.condition a).eval (L a) :=
  Formula.eval_congr _ fun _ hr ↦ Atoms.valuation_linkAtom (hS.link_mem hr)

/-- **Every choice of completions** that gives the decided arguments their values is shown. -/
theorem Fits.shows_valuation (hS : S.Fits) {L : Nat → Nat → Bool}
    (hI : I.size = S.framework.size) (hL : ∀ a, I.CompletedBy (L a))
    (heval : ∀ a b, I.Decides a b → (S.framework.condition a).eval (L a) = b) :
    S.Shows (S.atoms.valuation I L) I where
  encodes := Atoms.encodes_valuation (hI.trans hS.size_eq.symm) L
  sees a b hab c hc := by
    rw [seen, Atoms.valuation_linkAtom (hS.link_mem (Framework.mem_children_iff.1 hc))]
    exact hL c a b hab
  verdict_eq a b hab := (hS.verdict_valuation I L a).trans (heval a b hab)

/-- **The models of the encoding are the conflict-free interpretations.** -/
theorem Fits.exists_shows_iff (hS : S.Fits) :
    (∃ v, S.Shows v I) ↔ S.framework.ConflictFree I := by
  constructor
  · rintro ⟨v, h⟩
    refine ⟨h.encodes.size_eq.trans hS.size_eq, fun a b hab ↦ ?_⟩
    obtain ⟨w, hw, heval⟩ := (h.seesDecided a).exists_completion
    exact ⟨w, hw, heval.trans (h.verdict_eq a b hab)⟩
  · intro h
    -- a completion for each argument; for decided arguments one that allows their value
    obtain ⟨L, hL, heval⟩ := Interpretation.exists_completions h.allows
    exact ⟨_, hS.shows_valuation h.size_eq hL heval⟩

/-! ### The encoding -/

/-- What the clauses for one argument say. -/
def ShownAt (S : Setting) (v : Variable → Bool) (a : Nat) : Prop :=
  ¬(v (S.atoms.satisfied a) ∧ v (S.atoms.unsatisfied a)) ∧
    ∀ b, v (S.atoms.atom a b) → S.verdict v a = b ∧ ∀ c ∈ S.framework.children a, S.seen v c a = b

/-- **One argument at a time.** A valuation shows some interpretation if and only if what the
clauses say holds of each argument. -/
theorem Fits.exists_shows_iff_shownAt (hS : S.Fits) :
    (∃ I, S.Shows v I) ↔ ∀ a ∈ S.framework.arguments, S.ShownAt v a := by
  constructor
  · rintro ⟨I, h⟩ a ha
    have ha : a < S.atoms.size := hS.size_eq ▸ Framework.mem_arguments.1 ha
    refine ⟨fun ⟨ht, hf⟩ ↦ ?_, fun b hb ↦ ?_⟩
    · exact Bool.noConfusion (((h.encodes.decides_iff a true ha).1 ht).unique
        ((h.encodes.decides_iff a false ha).1 hf))
    · have hab := (h.encodes.decides_iff a b ha).1 hb
      exact ⟨h.verdict_eq a b hab, h.sees a b hab⟩
  · intro h
    have hargs : ∀ a < S.atoms.size, S.ShownAt v a := fun a ha ↦
      h a (Framework.mem_arguments.2 (hS.size_eq ▸ ha))
    obtain ⟨I, hI⟩ := Atoms.exists_encodes fun a ha ↦ (hargs a ha).1
    have hdec : ∀ a b, I.Decides a b →
        S.verdict v a = b ∧ ∀ c ∈ S.framework.children a, S.seen v c a = b := by
      intro a b hab
      have ha : a < S.atoms.size := hI.size_eq ▸ hab.lt_size
      exact (hargs a ha).2 b ((hI.decides_iff a b ha).2 hab)
    exact ⟨I, hI, fun a b hab ↦ (hdec a b hab).2, fun a b hab ↦ (hdec a b hab).1⟩

/-- The clauses by which the children of an argument see its value. -/
theorem Fits.imposes_children (hS : S.Fits) {n : Nat} (hn : S.atoms.count ≤ n)
    (ha : a < S.atoms.size) :
    Encoder.Imposes ((S.framework.children a).forM fun c ↦ do
        let seen ← Encoder.ofExcept (S.atoms.link a c)
        Encoder.clauses [[(S.atoms.satisfied a).neg, seen.pos],
          [(S.atoms.unsatisfied a).neg, seen.neg]])
      n () fun v ↦ ∀ c ∈ S.framework.children a, ∀ b, v (S.atoms.atom a b) → S.seen v c a = b := by
  refine Encoder.Imposes.forM fun c hc ↦ ?_
  have hlink := hS.link_mem (Framework.mem_children_iff.1 hc)
  have hvar : ∀ b, S.atoms.atom a b < n := fun b ↦ Nat.lt_of_lt_of_le (Atoms.atom_lt_count ha) hn
  have hseen : S.atoms.linkAtom a c < n := Nat.lt_of_lt_of_le (Atoms.linkAtom_lt hlink) hn
  refine (Encoder.Imposes.bind (Encoder.imposes_ofExcept (Atoms.link_eq hlink).1 n)
    (Encoder.imposes_clauses ?_)).congr fun v ↦ ?_
  · simp only [List.mem_cons, List.not_mem_nil, or_false, forall_eq_or_imp, forall_eq, span_le_iff]
    exact ⟨⟨hvar true, hseen⟩, hvar false, hseen⟩
  · simp only [allHold_cons, allHold_nil, holds_pair, Literal.holds, Bool.forall_bool, seen,
      Atoms.atom_true, Atoms.atom_false]
    cases v (S.atoms.satisfied a) <;> cases v (S.atoms.unsatisfied a) <;>
      cases v (S.atoms.linkAtom a c) <;> simp

/-- The clauses by which a decided argument gives its value to a literal and to its children. -/
theorem Fits.imposes_decided (hS : S.Fits) {n : Nat} {l : Literal} (hn : S.atoms.count ≤ n)
    (hl : l.var < n) (ha : a < S.atoms.size) :
    Encoder.Imposes (do
        Encoder.clause [(S.atoms.satisfied a).neg, l]
        Encoder.clause [(S.atoms.unsatisfied a).neg, l.negate]
        (S.framework.children a).forM fun c ↦ do
          let seen ← Encoder.ofExcept (S.atoms.link a c)
          Encoder.clauses [[(S.atoms.satisfied a).neg, seen.pos],
            [(S.atoms.unsatisfied a).neg, seen.neg]])
      n () fun v ↦ ∀ b, v (S.atoms.atom a b) →
        l.holds v = b ∧ ∀ c ∈ S.framework.children a, S.seen v c a = b := by
  have hvar : ∀ b, S.atoms.atom a b < n := fun b ↦ Nat.lt_of_lt_of_le (Atoms.atom_lt_count ha) hn
  have hspan : ∀ (b : Bool) (l' : Literal), l'.var < n →
      span [(S.atoms.atom a b).neg, l'] ≤ n := fun b l' hl' ↦ span_le_iff.2 (by simp [hvar b, hl'])
  have hclause : ∀ (v : Variable → Bool) (x : Variable) (l' : Literal),
      Clause.holds v [x.neg, l'] ↔ (v x → l'.holds v) := fun v x l' ↦ by
    rw [holds_pair, Literal.holds]
    cases v x <;> simp
  refine ((Encoder.imposes_clause (hspan true l hl)).bind
    ((Encoder.imposes_clause (hspan false l.negate hl)).bind
      (hS.imposes_children hn ha))).congr fun v ↦ ?_
  simp only [hclause, Literal.holds_negate, Bool.not_eq_eq_eq_not, Bool.not_true, Bool.forall_bool,
    Atoms.atom_true, Atoms.atom_false]
  constructor
  · rintro ⟨ht, hf, hc⟩
    exact ⟨fun h ↦ ⟨hf h, fun c hc' ↦ (hc c hc').1 h⟩, fun h ↦ ⟨ht h, fun c hc' ↦ (hc c hc').2 h⟩⟩
  · rintro ⟨hf, ht⟩
    exact ⟨fun h ↦ (ht h).1, fun h ↦ (hf h).1, fun c hc ↦ ⟨fun h ↦ (hf h).2 c hc,
      fun h ↦ (ht h).2 c hc⟩⟩

theorem Fits.localBelow_decided (hS : S.Fits) (ha : a < S.atoms.size) :
    LocalBelow S.atoms.count fun v ↦ ∀ b, v (S.atoms.atom a b) →
      S.verdict v a = b ∧ ∀ c ∈ S.framework.children a, S.seen v c a = b := by
  intro v w hvw h b hb
  have hb' : v (S.atoms.atom a b) := (hvw _ (Atoms.atom_lt_count ha)).trans hb
  refine ⟨hS.verdict_eq hvw a ▸ (h b hb').1, fun c hc ↦ ?_⟩
  rw [← hS.seen_eq (Framework.mem_children_iff.1 hc) hvw]
  exact (h b hb').2 c hc

/-- The clauses for one argument, of which the name of its condition is a part. -/
theorem Fits.imposes_conflictFreeAt (hS : S.Fits) (ha : a < S.framework.size) :
    (S.conflictFreeAt a).Imposes S.atoms.count () fun v ↦ S.ShownAt v a := by
  have ha : a < S.atoms.size := hS.size_eq ▸ ha
  have hvar : ∀ b, S.atoms.atom a b < S.atoms.count := fun b ↦ Atoms.atom_lt_count ha
  have hspan : span [(S.atoms.satisfied a).neg, (S.atoms.unsatisfied a).neg] ≤ S.atoms.count :=
    span_le_iff.2 (by simpa using ⟨hvar true, hvar false⟩)
  refine ((Encoder.imposes_clause hspan).bind
    ((Encoder.imposes_ofExcept (hS.linked_eq a) _).bind
      (.named hS.var_lt_count (fun n l hn hl ↦ hS.imposes_decided hn hl ha)
        (hS.localBelow_decided ha) fun l v hl ↦ ?_))).congr fun v ↦ ?_
  · rw [hl, eval_linkedCondition]
  · rw [ShownAt, holds_pair, true_and, Literal.holds, Literal.holds]
    cases v (S.atoms.satisfied a) <;> cases v (S.atoms.unsatisfied a) <;> simp

/-- The valuation shows one of some interpretations to be conflict-free. -/
def ShowsIn (S : Setting) (R : Set Interpretation) (v : Variable → Bool) : Prop :=
  ∃ I ∈ R, S.Shows v I

/-- **The encoding says that an interpretation is shown to be conflict-free.** -/
theorem Fits.imposes_conflictFree (hS : S.Fits) :
    S.conflictFree.Imposes S.atoms.count () (S.ShowsIn Set.univ) := by
  refine (Encoder.Imposes.forM fun _ ha ↦
    hS.imposes_conflictFreeAt (Framework.mem_arguments.1 ha)).congr fun v ↦ ?_
  rw [← hS.exists_shows_iff_shownAt]
  exact exists_congr fun I ↦ (and_iff_right trivial).symm

/-- Clauses over the argument atoms leave fewer interpretations. -/
theorem showsIn_inter {cs : List Clause} {R B : Set Interpretation} (h : S.atoms.Selects cs B) :
    S.ShowsIn R v ∧ AllHold cs v ↔ S.ShowsIn (R ∩ B) v := by
  constructor
  · rintro ⟨⟨I, hI, hv⟩, hcs⟩
    exact ⟨I, ⟨hI, (h.allHold_iff v I hv.encodes).1 hcs⟩, hv⟩
  · rintro ⟨I, ⟨hI, hB⟩, hv⟩
    exact ⟨⟨I, hI, hv⟩, (h.allHold_iff v I hv.encodes).2 hB⟩

/-- With the clauses that decide every argument, two-valued interpretations are left. -/
theorem Fits.imposes_twoValued (hS : S.Fits) :
    S.twoValued.Imposes S.atoms.count () (S.ShowsIn {I | I.isTwoValued}) := by
  have hselects := Atoms.selects_decided S.atoms
  refine (hS.imposes_conflictFree.bind hselects.imposes).congr fun v ↦ ?_
  rw [showsIn_inter hselects, Set.univ_inter]

/-- The names of all conditions. -/
theorem Fits.names_acceptances (hS : S.Fits) : Encoder.Names S.acceptances S.atoms.count
    (S.framework.arguments.map S.linkedCondition) :=
  Encoder.names_mapM (fun a _ ↦ hS.linked_eq a) fun _ _ ↦ hS.var_lt_count

/-- The values of all conditions on what the arguments see. -/
theorem map_eval_linkedCondition (S : Setting) (v : Variable → Bool) :
    (S.framework.arguments.map S.linkedCondition).map (Formula.eval (Literal.holds v)) =
      S.framework.arguments.map (S.verdict v) := by
  rw [List.map_map]
  exact List.map_congr_left fun a _ ↦ S.eval_linkedCondition v a

end Setting

end Dialectical
