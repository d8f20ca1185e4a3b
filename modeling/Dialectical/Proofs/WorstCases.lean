import Dialectical.Encoding.Bipolar
import Dialectical.Proofs.Completions
import Dialectical.Proofs.LinkTypes

/-!
# Worst cases exclude nothing admissible

The worst-case clauses restrict the link atoms of a model, and by this the conflict-free
interpretations that have a model at all. An admissible interpretation keeps one: its decided
arguments have their values under **all** completions, so in particular under the one in which every
undecided parent is as bad as its link allows (`Setting.ShowsWorst`), and under each choice of
values for the parents whose links have no such worst case.

The clauses say nothing of what undecided arguments see. So together with an admissible
interpretation they leave to each condition all the values that completions allow
(`Setting.Fits.exists_showsWorst_verdict`), and may be added where these are asked for.

The clauses for a typed link say that an undecided parent is seen in its worst case, whatever the
interpretation is (`Setting.Fits.allHold_worstCase_iff`). What the clauses for an argument say is
otherwise kept as it is written (`Setting.WorstCasesAt`), since which interpretations are excluded
depends on the bound.
-/

namespace Dialectical

open Clause

/-! ### Values of arguments -/

/-- What is listed are the ways to give each argument of the list a value. -/
theorem mem_valuesOver {as : List Nat} {values : List (Nat × Bool)} :
    values ∈ valuesOver as ↔ values.map Prod.fst = as := by
  induction as generalizing values with
  | nil => rw [valuesOver, List.mem_singleton, List.map_eq_nil_iff]
  | cons a as ih =>
    simp only [valuesOver, List.mem_flatMap, List.mem_map, ih]
    constructor
    · rintro ⟨b, -, rest, rfl, rfl⟩
      rfl
    · intro h
      obtain ⟨⟨_, b⟩, rest, rfl, rfl, hrest⟩ := List.map_eq_cons_iff.1 h
      exact ⟨b, by cases b <;> simp, rest, hrest, rfl⟩

/-- And each of them is listed once. -/
theorem nodup_valuesOver (as : List Nat) : (valuesOver as).Nodup := by
  induction as with
  | nil => exact List.nodup_singleton []
  | cons a as ih =>
    have hblock : ∀ b, ((valuesOver as).map ((a, b) :: ·)).Nodup :=
      fun b ↦ ih.map List.cons_injective
    -- what begins with false does not begin with true
    have hdisjoint : List.Disjoint ((valuesOver as).map ((a, false) :: ·))
        ((valuesOver as).map ((a, true) :: ·)) := by
      intro values hfalse htrue
      obtain ⟨rest, -, rfl⟩ := List.mem_map.1 hfalse
      obtain ⟨rest', -, heq⟩ := List.mem_map.1 htrue
      exact absurd (congrArg List.head? heq) (by simp)
    rw [valuesOver, List.flatMap_cons, List.flatMap_cons, List.flatMap_nil, List.append_nil]
    exact (hblock false).append (hblock true) hdisjoint

/-! ### The worst values of parents -/

/-- The value of an undecided parent that is as bad for a child with some value as the link allows,
if the type of the link tells which one this is. -/
def LinkType.worst? : LinkType → Bool → Option Bool
  | .supporting, b => some !b
  | .attacking, b => some b
  | .redundant, _ => none
  | .dependent, _ => none

namespace Setting

variable {S : Setting} {I : Interpretation} {a r k n : Nat} {b : Bool} {v : Variable → Bool}

/-! ### What the clauses say -/

/-- The parents of an argument whose links are neither supporting nor attacking. -/
noncomputable def dependents (S : Setting) (a : Nat) : List Nat :=
  (S.framework.parents a).filter fun r ↦ S.framework.typeOf ⟨r, a⟩ = .dependent

/-- With these values of some parents, the condition has the value of the argument if the argument
is decided and none of the parents is decided otherwise. -/
def EnumeratedAt (S : Setting) (a : Nat) (values : List (Nat × Bool)) (v : Variable → Bool) :
    Prop :=
  (∀ p ∈ values, v (S.atoms.atom p.1 (!p.2)) = false) → ∀ b, v (S.atoms.atom a b) = true →
    ((S.framework.condition a).eval fun r ↦ (values.lookup r).getD (S.seen v a r)) = b

/-- The clauses for one argument: typed links are in their worst cases, and the other parents are
enumerated unless there are too many of them. -/
def WorstCasesAt (S : Setting) (k a : Nat) (v : Variable → Bool) : Prop :=
  (∀ r ∈ S.framework.parents a, AllHold
      (S.worstCase r a (S.atoms.linkAtom r a) (S.framework.typeOf ⟨r, a⟩)) v) ∧
    (S.dependents a ≠ [] → (S.dependents a).length ≤ k →
      ∀ values ∈ valuesOver (S.dependents a), S.EnumeratedAt a values v)

/-- The dependent parents are those whose link is of no definite kind. -/
theorem mem_dependents : r ∈ S.dependents a ↔
    r ∈ S.framework.parents a ∧ S.framework.typeOf ⟨r, a⟩ = .dependent := by
  rw [dependents, List.mem_filter, decide_eq_true_iff]

/-- Both ends of a link have atoms. -/
theorem Fits.lt_size_of_mem_parents (hS : S.Fits) (h : r ∈ S.framework.parents a) :
    r < S.atoms.size ∧ a < S.atoms.size :=
  hS.size_eq ▸ Framework.lt_size_of_mem_occurrences (Framework.mem_parents.1 h)

theorem Fits.lt_size_of_mem_valuesOver (hS : S.Fits) {values : List (Nat × Bool)} {p : Nat × Bool}
    (hvalues : values ∈ valuesOver (S.dependents a)) (hp : p ∈ values) : p.1 < S.atoms.size := by
  have hmem : p.1 ∈ S.dependents a := mem_valuesOver.1 hvalues ▸ List.mem_map_of_mem hp
  exact (hS.lt_size_of_mem_parents (mem_dependents.1 hmem).1).1

/-- The clauses for a typed link give the atom of the link its worst value. -/
theorem allHold_worstCase {x : Variable} {type : LinkType} :
    AllHold (S.worstCase r a x type) v ↔ ∀ b c, type.worst? b = some c →
      Clause.holds v [(S.atoms.atom a b).neg, (S.atoms.atom r (!c)).pos, ⟨x, c⟩] := by
  cases type with
  | supporting | attacking =>
    simp only [worstCase, allHold_cons, allHold_nil, and_true, LinkType.worst?, Option.some.injEq,
      forall_eq', Bool.forall_bool, Bool.not_true, Bool.not_false]
    exact and_comm
  | redundant | dependent => simp [worstCase, LinkType.worst?]

/-- **Worst cases.** If the argument atoms stand for an interpretation, and decided parents are seen
as they are, the clauses for a typed link say that a decided argument sees an undecided parent in
its worst case. -/
theorem Fits.allHold_worstCase_iff (hS : S.Fits) (hr : r ∈ S.framework.parents a)
    (hv : S.atoms.Encodes v I) (hsees : S.SeesDecided I a v) {type : LinkType} :
    AllHold (S.worstCase r a (S.atoms.linkAtom r a) type) v ↔
      ∀ b c, I.Decides a b → I.status? r = some .undecided → type.worst? b = some c →
        S.seen v a r = c := by
  obtain ⟨hrlt, halt⟩ := hS.lt_size_of_mem_parents hr
  have hclause : ∀ b c, Clause.holds v [(S.atoms.atom a b).neg, (S.atoms.atom r (!c)).pos,
      ⟨S.atoms.linkAtom r a, c⟩] ↔ ¬I.Decides a b ∨ I.Decides r (!c) ∨ S.seen v a r = c := by
    intro b c
    have hlink : (⟨S.atoms.linkAtom r a, c⟩ : Literal).holds v ↔ S.seen v a r = c := beq_iff_eq
    rw [holds_cons, holds_pair, hv.holds_neg halt, hv.holds_pos hrlt, hlink]
  rw [allHold_worstCase]
  refine forall₂_congr fun b c ↦ ?_
  rw [hclause]
  constructor
  · intro h hb hu hc
    rcases h hc with hnot | hd | hseen
    · exact absurd hb hnot
    · exact absurd hd (Interpretation.not_decides_of_undecided hu)
    · exact hseen
  · intro h hc
    by_cases hb : I.Decides a b
    · -- the parent is decided so, decided otherwise and seen so, or seen in its worst case
      refine .inr ?_
      rcases Interpretation.decides_or_undecided (hv.size_eq ▸ hrlt) with ⟨d, hd⟩ | hu
      · rcases Bool.eq_or_eq_not d c with rfl | rfl
        · exact .inr (hsees r hr d hd)
        · exact .inl hd
      · exact .inr (h hb hu hc)
    · exact .inl hb

/-! ### The encoding -/

/-- **The clauses of one link** are over the atoms, and impose just what they say. -/
theorem Fits.imposes_worstCase (hS : S.Fits) (hr : r ∈ S.framework.parents a) (type : LinkType) :
    (Encoder.clauses (S.worstCase r a (S.atoms.linkAtom r a) type)).Imposes S.atoms.count ()
      (AllHold (S.worstCase r a (S.atoms.linkAtom r a) type)) := by
  obtain ⟨hrlt, halt⟩ := hS.lt_size_of_mem_parents hr
  have hatom : ∀ d < S.atoms.size, ∀ b, S.atoms.atom d b < S.atoms.count :=
    fun d hd b ↦ Atoms.atom_lt_count hd
  have hlink := Atoms.linkAtom_lt (hS.link_mem (Framework.mem_parents.1 hr))
  have hspan : ∀ b c, ∀ l : Literal, l.var = S.atoms.linkAtom r a →
      span [(S.atoms.atom a b).neg, (S.atoms.atom r c).pos, l] ≤ S.atoms.count := by
    intro b c l hl
    refine span_le_iff.2 ?_
    simpa [hl] using ⟨hatom a halt b, hatom r hrlt c, hlink⟩
  refine Encoder.imposes_clauses fun c hc ↦ ?_
  cases type with
  | attacking =>
    simp only [worstCase, List.mem_cons, List.not_mem_nil, or_false] at hc
    rcases hc with rfl | rfl
    · exact hspan true false _ rfl
    · exact hspan false true _ rfl
  | supporting =>
    simp only [worstCase, List.mem_cons, List.not_mem_nil, or_false] at hc
    rcases hc with rfl | rfl
    · exact hspan true true _ rfl
    · exact hspan false false _ rfl
  | redundant => exact absurd hc List.not_mem_nil
  | dependent => exact absurd hc List.not_mem_nil

/-- The parents that are left are those with a dependent link. -/
theorem Fits.imposes_worstCases (hS : S.Fits) {rs : List Nat}
    (hrs : ∀ r ∈ rs, r ∈ S.framework.parents a) :
    (S.worstCases S.framework.allTypes a rs).Imposes S.atoms.count
      (rs.filter fun r ↦ S.framework.typeOf ⟨r, a⟩ = .dependent)
      fun v ↦ ∀ r ∈ rs, AllHold
        (S.worstCase r a (S.atoms.linkAtom r a) (S.framework.typeOf ⟨r, a⟩)) v := by
  induction rs with
  | nil => exact (Encoder.imposes_pure [] _).congr fun v ↦ by simp
  | cons r rs ih =>
    have hr := hrs r (by simp)
    have hlookup := Framework.lookup_allTypes
      (Framework.link_mem_links.2 (Framework.mem_parents.1 hr))
    have hlink := (Atoms.link_eq (hS.link_mem (Framework.mem_parents.1 hr))).1
    have hih := ih fun d hd ↦ hrs d (by simp [hd])
    have hcase := hS.imposes_worstCase hr (S.framework.typeOf ⟨r, a⟩)
    rw [worstCases, hlookup]
    simp only [List.forall_mem_cons]
    cases htype : S.framework.typeOf ⟨r, a⟩ with
    | dependent =>
      rw [List.filter_cons_of_pos (by simpa using htype)]
      exact hih.bind_pure.congr fun v ↦ (and_iff_right allHold_nil).symm
    | supporting | attacking | redundant =>
      rw [htype] at hcase
      rw [List.filter_cons_of_neg (by simp [htype])]
      exact ((Encoder.imposes_ofExcept hlink _).bind (hcase.bind hih)).congr
        fun v ↦ and_iff_right trivial

/-- A clause about an argument applies unless one of the parents is decided otherwise. -/
theorem holds_otherwise {x : Variable} {l : Literal} {values : List (Nat × Bool)} :
    Clause.holds v (x.neg :: l :: values.map fun p ↦ (S.atoms.atom p.1 (!p.2)).pos) ↔
      ((∀ p ∈ values, v (S.atoms.atom p.1 (!p.2)) = false) → v x = true → l.holds v) := by
  have hvalues : Clause.holds v (values.map fun p ↦ (S.atoms.atom p.1 (!p.2)).pos) ↔
      ¬∀ p ∈ values, v (S.atoms.atom p.1 (!p.2)) = false := by
    rw [Clause.holds, List.any_map, List.any_eq_true]
    push Not
    refine exists_congr fun p ↦ and_congr_right fun _ ↦ ?_
    rw [ne_eq, Bool.not_eq_false]
    exact beq_iff_eq
  rw [holds_cons, holds_cons, hvalues]
  by_cases hp : ∀ p ∈ values, v (S.atoms.atom p.1 (!p.2)) = false
  · rw [or_iff_left (not_not.2 hp), forall_prop_of_true hp]
    cases hx : v x <;> simp [Literal.holds, hx]
  · exact iff_of_true (.inr (.inr hp)) fun h ↦ absurd h hp

/-- The clauses for one choice of values, once the condition has a name. -/
theorem imposes_otherwise {values : List (Nat × Bool)} {l : Literal}
    (ha : a < S.atoms.size) (hvalues : ∀ p ∈ values, p.1 < S.atoms.size)
    (hn : S.atoms.count ≤ n) (hl : l.var < n) :
    Encoder.Imposes (do
        Encoder.clause ((S.atoms.satisfied a).neg :: l :: values.map fun p ↦
          (S.atoms.atom p.1 (!p.2)).pos)
        Encoder.clause ((S.atoms.unsatisfied a).neg :: l.negate :: values.map fun p ↦
          (S.atoms.atom p.1 (!p.2)).pos)) n () fun v ↦
      (∀ p ∈ values, v (S.atoms.atom p.1 (!p.2)) = false) →
        ∀ b, v (S.atoms.atom a b) = true → l.holds v = b := by
  have hspan : ∀ (b : Bool) (l' : Literal), l'.var < n → span ((S.atoms.atom a b).neg :: l' ::
      values.map fun p ↦ (S.atoms.atom p.1 (!p.2)).pos) ≤ n := by
    refine fun b l' hl' ↦ span_le_iff.2 ?_
    simp only [List.forall_mem_cons, List.forall_mem_map]
    exact ⟨Nat.lt_of_lt_of_le (Atoms.atom_lt_count ha) hn, hl', fun p hp ↦
      Nat.lt_of_lt_of_le (Atoms.atom_lt_count (hvalues p hp)) hn⟩
  refine ((Encoder.imposes_clause (hspan true l hl)).bind
    (Encoder.imposes_clause (hspan false l.negate hl))).congr fun v ↦ ?_
  rw [holds_otherwise, holds_otherwise, Literal.holds_negate, Bool.not_eq_true', ← forall_and]
  refine forall_congr' fun _ ↦ ?_
  rw [Bool.forall_bool, and_comm]

/-- **The clauses for one choice of values** of the parents that are enumerated. -/
theorem Fits.imposes_enumerated (hS : S.Fits) {values : List (Nat × Bool)} (ha : a < S.atoms.size)
    (hvalues : ∀ p ∈ values, p.1 < S.atoms.size) :
    (S.enumerated a values).Imposes S.atoms.count () (S.EnumeratedAt a values) := by
  -- the condition that is named looks at the other parents only
  let c := (S.framework.condition a).substitute fun d ↦ values.lookup d
  have hsub : ∀ r ∈ c.occurrences, r ∈ (S.framework.condition a).occurrences := fun r hr ↦
    (Formula.occurrences_substitute hr).1
  have hok : c.traverse (fun r ↦ Variable.pos <$> S.atoms.link r a) =
      .ok (c.map fun r ↦ (S.atoms.linkAtom r a).pos) :=
    Formula.traverse_eq_ok fun r hr ↦ by rw [(Atoms.link_eq (hS.link_mem (hsub r hr))).1]; rfl
  have hvar : ∀ l ∈ (c.map fun r ↦ (S.atoms.linkAtom r a).pos).occurrences,
      l.var < S.atoms.count := by
    intro l hl
    rw [Formula.occurrences_map] at hl
    obtain ⟨r, hr, rfl⟩ := List.mem_map.1 hl
    exact Atoms.linkAtom_lt (hS.link_mem (hsub r hr))
  have heval : ∀ v : Variable → Bool,
      (c.map fun r ↦ (S.atoms.linkAtom r a).pos).eval (Literal.holds v) =
        (S.framework.condition a).eval fun r ↦ (values.lookup r).getD (S.seen v a r) := by
    intro v
    rw [Formula.eval_map, Formula.eval_substitute]
    exact Formula.eval_congr _ fun r _ ↦ by simp [Literal.holds, seen]
  have hlocal : LocalBelow S.atoms.count (S.EnumeratedAt a values) := by
    intro v w hvw h hw b hb
    have hatom : ∀ d < S.atoms.size, ∀ c, v (S.atoms.atom d c) = w (S.atoms.atom d c) :=
      fun d hd c ↦ hvw _ (Atoms.atom_lt_count hd)
    rw [← h (fun p hp ↦ (hatom p.1 (hvalues p hp) _).trans (hw p hp)) b ((hatom a ha b).trans hb)]
    exact Formula.eval_congr _ fun r hr ↦ by rw [hS.seen_eq hr hvw]
  have hotherwise : ∀ f : Nat × Bool → Literal, (∀ r b, f (r, b) = (S.atoms.atom r (!b)).pos) →
      values.map f = values.map fun p ↦ (S.atoms.atom p.1 (!p.2)).pos :=
    fun f hf ↦ List.map_congr_left fun p _ ↦ hf p.1 p.2
  rw [enumerated, hotherwise _ fun r b ↦ by cases b <;> rfl]
  refine ((Encoder.imposes_ofExcept hok _).bind (.named hvar (fun n l hn hl ↦
    imposes_otherwise ha hvalues hn hl) hlocal fun l v hl ↦ ?_)).congr
      fun v ↦ and_iff_right trivial
  rw [hl, heval, EnumeratedAt]

/-- The clauses for one argument. -/
theorem Fits.imposes_bipolarAt (hS : S.Fits) (ha : a < S.atoms.size) (k : Nat) :
    (S.bipolarAt S.framework.allTypes k a).Imposes S.atoms.count
      ((S.framework.parents a).length - (S.dependents a).length,
        !((S.dependents a).isEmpty || k < (S.dependents a).length))
      (S.WorstCasesAt k a) := by
  refine (hS.imposes_worstCases fun r hr ↦ hr).bind ?_
  show Encoder.Imposes (if (S.dependents a).isEmpty || k < (S.dependents a).length then
      pure ((S.framework.parents a).length - (S.dependents a).length, false)
    else do
      (valuesOver (S.dependents a)).forM (S.enumerated a)
      return ((S.framework.parents a).length - (S.dependents a).length, true)) _ _ _
  by_cases hskip : (S.dependents a).isEmpty || k < (S.dependents a).length
  · rw [if_pos hskip, hskip]
    refine (Encoder.imposes_pure _ _).congr fun v ↦ iff_of_true trivial fun hne hle ↦ ?_
    rw [Bool.or_eq_true, List.isEmpty_iff, decide_eq_true_iff] at hskip
    exact absurd (hskip.resolve_left hne) (Nat.not_lt.2 hle)
  · rw [if_neg hskip, Bool.not_eq_true] at *
    rw [hskip]
    refine (Encoder.Imposes.forM fun values hmem ↦
      hS.imposes_enumerated ha fun p ↦ hS.lt_size_of_mem_valuesOver hmem).bind_pure.congr
        fun v ↦ ?_
    rw [Bool.or_eq_false_iff, List.isEmpty_eq_false_iff, decide_eq_false_iff_not,
      Nat.not_lt] at hskip
    rw [forall_prop_of_true hskip.1, forall_prop_of_true hskip.2]

/-- **The clauses for all arguments.** -/
theorem Fits.imposes_bipolar (hS : S.Fits) (k : Nat) :
    ∃ counts, (S.bipolar S.framework.allTypes k).Imposes S.atoms.count counts
      fun v ↦ ∀ a ∈ S.framework.arguments, S.WorstCasesAt k a v := by
  have hall := Encoder.Imposes.mapM fun a ha ↦
    hS.imposes_bipolarAt (hS.size_eq ▸ Framework.mem_arguments.1 ha) k
  exact ⟨_, hall.bind_pure⟩

/-! ### The worst completions -/

/-- The value of an undecided parent that is as bad for its child as the link allows. -/
noncomputable def worstOf (S : Setting) (I : Interpretation) (a r : Nat) : Bool :=
  match S.framework.typeOf ⟨r, a⟩ with
  | .supporting => decide (I.Decides a false)
  | .attacking => decide (I.Decides a true)
  | _ => false

/-- The valuation shows an interpretation in its worst cases: decided arguments see their undecided
parents as badly as the links allow. What the others see is left open. -/
structure ShowsWorst (S : Setting) (v : Variable → Bool) (I : Interpretation) : Prop
    extends S.Shows v I where
  seen_eq : ∀ a b, I.Decides a b → ∀ r ∈ S.framework.parents a,
    S.seen v a r = I.withDefault (S.worstOf I a) r

/-- An admissible interpretation has its values even in the worst cases, whatever its undecided
arguments see. -/
theorem Fits.showsWorst_valuation (hS : S.Fits) (h : S.framework.Admissible I)
    {L : Nat → Nat → Bool} (hL : ∀ a, I.CompletedBy (L a))
    (hworst : ∀ a b, I.Decides a b → L a = I.withDefault (S.worstOf I a)) :
    S.ShowsWorst (S.atoms.valuation I L) I where
  toShows := hS.shows_valuation h.size_eq hL fun a b hb ↦ h.forces a b hb (L a) (hL a)
  seen_eq a b hb r hr := by
    rw [seen, Atoms.valuation_linkAtom (hS.link_mem (Framework.mem_parents.1 hr)), hworst a b hb]

/-- An admissible interpretation is shown in its worst cases. -/
theorem Fits.exists_showsWorst (hS : S.Fits) (h : S.framework.Admissible I) :
    ∃ v, S.ShowsWorst v I :=
  ⟨_, hS.showsWorst_valuation h (fun a ↦ I.completedBy_withDefault (S.worstOf I a))
    fun _ _ _ ↦ rfl⟩

/-- **The worst cases leave free what is free.** In the worst cases of an admissible interpretation
a condition still has every value that some completion allows. -/
theorem Fits.exists_showsWorst_verdict (hS : S.Fits) (h : S.framework.Admissible I)
    (hab : S.framework.Allows I a b) : ∃ v, S.ShowsWorst v I ∧ S.verdict v a = b := by
  obtain ⟨w, hw, heval⟩ := hab
  by_cases hdecided : ∃ c, I.Decides a c
  · -- a decided argument has its value under all completions
    obtain ⟨c, hc⟩ := hdecided
    obtain ⟨v, hv⟩ := hS.exists_showsWorst h
    refine ⟨v, hv, (hv.verdict_eq a c hc).trans ?_⟩
    rw [← heval, h.forces a c hc w hw]
  · -- an undecided one may see any completion, as it has no worst cases
    let L : Nat → Nat → Bool := fun d ↦ if d = a then w else I.withDefault (S.worstOf I d)
    have hL : ∀ d, I.CompletedBy (L d) := by
      intro d
      by_cases hd : d = a
      · simpa only [L, if_pos hd] using hw
      · simpa only [L, if_neg hd] using I.completedBy_withDefault (S.worstOf I d)
    have hworst : ∀ d c, I.Decides d c → L d = I.withDefault (S.worstOf I d) := by
      intro d c hc
      have hd : d ≠ a := fun hda ↦ hdecided ⟨c, hda ▸ hc⟩
      simp only [L, if_neg hd]
    refine ⟨_, hS.showsWorst_valuation h hL hworst, ?_⟩
    rw [hS.verdict_valuation]
    simpa only [L, if_pos] using heval

/-- Where a link has a worst value for a decided child, its parent takes it. -/
theorem worstOf_eq {c : Bool} (hb : I.Decides a b)
    (hc : (S.framework.typeOf ⟨r, a⟩).worst? b = some c) : S.worstOf I a r = c := by
  have hother : ¬I.Decides a (!b) := fun h ↦ Bool.not_ne_self b (h.unique hb)
  rw [worstOf]
  cases htype : S.framework.typeOf ⟨r, a⟩ with
  | supporting =>
    rw [htype] at hc
    obtain rfl : (!b) = c := Option.some.inj hc
    cases b <;> simp_all
  | attacking =>
    rw [htype] at hc
    obtain rfl : b = c := Option.some.inj hc
    cases b <;> simp_all
  | redundant | dependent =>
    rw [htype] at hc
    exact absurd hc.symm (Option.some_ne_none c)

/-- The values of parents that are not decided otherwise can be put in for what is seen. -/
theorem Shows.enumeratedAt (hv : S.Shows v I) (h : ∀ b, I.Decides a b → S.framework.Forces I a b)
    {values : List (Nat × Bool)} (ha : a < S.atoms.size)
    (hvalues : ∀ p ∈ values, p.1 < S.atoms.size) : S.EnumeratedAt a values v := by
  intro hotherwise b hb
  have hdecided : ∀ r ∈ S.framework.parents a, ∀ c, I.Decides r c →
      (values.lookup r).getD (S.seen v a r) = c := by
    intro r hr c hc
    cases hlookup : values.lookup r with
    | none => exact hv.seesDecided a r hr c hc
    | some x =>
      obtain ⟨l₁, l₂, rfl, -⟩ := List.lookup_eq_some_iff.1 hlookup
      have hmem : (r, x) ∈ l₁ ++ (r, x) :: l₂ := by simp
      by_contra hne
      obtain rfl : c = !x := by cases c <;> cases x <;> simp_all
      have hatom := (hv.encodes.decides_iff r _ (hvalues _ hmem)).2 hc
      exact Bool.noConfusion (hatom.symm.trans (hotherwise _ hmem))
  obtain ⟨w, hw, heval⟩ := Framework.exists_completion hdecided
  rw [← heval]
  exact h b ((hv.encodes.decides_iff a b ha).1 hb) w hw

/-- **The clauses exclude nothing admissible.** -/
theorem ShowsWorst.worstCasesAt (hv : S.ShowsWorst v I) (hS : S.Fits)
    (h : S.framework.Admissible I) (ha : a < S.atoms.size) (k : Nat) : S.WorstCasesAt k a v := by
  constructor
  · intro r hr
    rw [hS.allHold_worstCase_iff hr hv.encodes (hv.seesDecided a)]
    intro b c hb hu hc
    have hno : ∀ d, ¬I.Decides r d := fun d ↦ Interpretation.not_decides_of_undecided hu
    rw [hv.seen_eq a b hb r hr, Interpretation.withDefault_of_not_decides hno, worstOf_eq hb hc]
  · intro _ _ values hvalues
    exact hv.enumeratedAt (h.forces a) ha fun p hp ↦ hS.lt_size_of_mem_valuesOver hvalues hp

end Setting

end Dialectical
