import Dialectical.Proofs.Generators
import Dialectical.Verifier.Complete

/-!
# Verifying completeness in one session

An argument of a complete interpretation is satisfied, or unsatisfied, exactly if its condition is
true, or false, under all completions. Both can be asked of a session that has names for the
conditions and says nothing else: if the values of the decided parents are assumed on the links of
an argument, what it sees is a completion, and every completion can be seen. So the name of its
condition can be true, or false, if and only if the condition is allowed to be
(`Setting.OnlyNames.ensures_allows`).

An interpretation is assumed on the links of one argument at a time, and assumptions are used up by
the question. Nothing of an interpretation stays in the session, which is therefore ready for any
other one, and is so even after the solver gave up (`CompleteVerifier.ensures_verify`).
-/

namespace Dialectical

open Act Clause

/-! ### What one argument demands -/

namespace Framework

variable {F : Framework} {I : Interpretation} {a : Nat} {b : Bool}

/-- A decided argument has the values that are forced if its own value is. -/
theorem decides_iff_forces_of_decides (h : I.Decides a b) :
    (∀ c, I.Decides a c ↔ F.Forces I a c) ↔ F.Forces I a b := by
  refine ⟨fun hall ↦ (hall b).1 h, fun hf c ↦ ⟨fun hc ↦ ?_, fun hc ↦ ?_⟩⟩
  · rwa [hc.unique h]
  · rwa [hc.unique hf]

/-- An undecided argument has the values that are forced if its condition can take both. -/
theorem decides_iff_forces_of_undecided (h : I.status? a = some .undecided) :
    (∀ c, I.Decides a c ↔ F.Forces I a c) ↔ F.Allows I a true ∧ F.Allows I a false := by
  have hnot : ∀ c, (I.Decides a c ↔ F.Forces I a c) ↔ F.Allows I a !c := by
    intro c
    rw [iff_false_left (Interpretation.not_decides_of_undecided h), not_forces_iff]
  simp only [hnot, Bool.forall_bool, Bool.not_false, Bool.not_true]

end Framework

/-! ### Seeing the decided parents -/

/-- A list all of whose elements are replaced without a fault. -/
theorem mapM_eq_ok {α β ε : Type} {f : α → Except ε β} {g : α → β} {as : List α}
    (h : ∀ a ∈ as, f a = .ok (g a)) : as.mapM f = .ok (as.map g) := by
  induction as with
  | nil => rfl
  | cons a as ih =>
    obtain ⟨ha, has⟩ := List.forall_mem_cons.1 h
    rw [List.mapM_cons, ha, ih has]
    rfl

namespace CompleteVerifier

variable {S : Setting} {I : Interpretation} {a r : Nat} {b : Bool} {v : Variable → Bool}

/-- The literals by which an argument sees the value of a parent: one if the parent is decided, and
none otherwise. -/
def seenLiterals (S : Setting) (I : Interpretation) (a r : Nat) : List Literal :=
  ([false, true].filter fun b ↦ I.Decides r b).map (⟨S.atoms.linkAtom r a, ·⟩)

/-- The literals say that the argument sees the value of the parent, if it has one. -/
theorem forall_mem_seenLiterals :
    (∀ l ∈ seenLiterals S I a r, l.holds v) ↔ ∀ b, I.Decides r b → S.seen v a r = b := by
  have hholds : ∀ b, (⟨S.atoms.linkAtom r a, b⟩ : Literal).holds v ↔ S.seen v a r = b :=
    fun b ↦ beq_iff_eq
  simp only [seenLiterals, List.forall_mem_map, hholds]
  simp

theorem seenLiterals_of_decides (h : I.Decides r b) :
    seenLiterals S I a r = [⟨S.atoms.linkAtom r a, b⟩] := by
  have hother : ¬I.Decides r (!b) := fun h' ↦ Bool.not_ne_self b (h'.unique h)
  cases b <;> simp_all [seenLiterals]

theorem seenLiterals_of_undecided (h : I.status? r = some .undecided) :
    seenLiterals S I a r = [] := by
  have hno : ∀ b, ¬I.Decides r b := fun b ↦ Interpretation.not_decides_of_undecided h
  simp [seenLiterals, hno]

/-- There are these literals for every parent, since it has a status and its link an atom. -/
theorem seen_eq (hS : S.Fits) (hI : I.size = S.framework.size) (hr : r ∈ S.framework.parents a) :
    seen S I a r = .ok (seenLiterals S I a r) := by
  have hr' := Framework.mem_parents.1 hr
  have hlink := (Atoms.link_eq (hS.link_mem hr')).1
  have hlt : r < I.size := hI ▸ (Framework.lt_size_of_mem_occurrences hr').1
  rcases Interpretation.decides_or_undecided hlt with ⟨b, hb⟩ | hu
  · rw [seenLiterals_of_decides hb, seen, Interpretation.status_eq_ok.2 hb, hlink]
    cases b <;> rfl
  · rw [seenLiterals_of_undecided hu, seen, Interpretation.status_eq_ok.2 hu]
    rfl

/-- **What is assumed** for an argument is that it sees the values of its decided parents. -/
theorem exists_seenBy_eq (hS : S.Fits) (hI : I.size = S.framework.size)
    (ha : a < S.framework.size) : ∃ ls, seenBy S I a = .ok ls ∧
      ∀ v, (∀ l ∈ ls, l.holds v) ↔ S.SeesDecided I a v := by
  refine ⟨((S.framework.parents a).map (seenLiterals S I a)).flatten, ?_, fun v ↦ ?_⟩
  · rw [seenBy, Framework.require, if_pos ha, mapM_eq_ok fun r hr ↦ seen_eq hS hI hr]
    rfl
  · rw [← List.flatMap_def]
    simp only [List.mem_flatMap, Setting.SeesDecided, ← forall_mem_seenLiterals]
    exact ⟨fun h r hr l hl ↦ h l ⟨r, hr, hl⟩, fun h l ⟨r, hr, hl⟩ ↦ h r hr l hl⟩

end CompleteVerifier

/-! ### Asking for the values of a condition -/

namespace Setting

variable {S : Setting} {e : Engine} {s : NamedSession} {I : Interpretation} {a : Nat} {b : Bool}

/-- What a condition can be, seen from an argument that sees the values of its decided parents. -/
theorem Fits.exists_seesDecided_iff (hS : S.Fits) :
    (∃ v, S.SeesDecided I a v ∧ S.verdict v a = b) ↔ S.framework.Allows I a b := by
  constructor
  · rintro ⟨v, hsees, hb⟩
    obtain ⟨w, hw, heval⟩ := hsees.exists_completion
    exact ⟨w, hw, heval.trans hb⟩
  · rintro ⟨w, hw, heval⟩
    refine ⟨S.atoms.valuation I fun _ ↦ w, fun r hr c hc ↦ ?_, ?_⟩
    · rw [seen, Atoms.valuation_linkAtom (hS.link_mem (Framework.mem_parents.1 hr))]
      exact hw r c hc
    · rw [hS.verdict_valuation]
      exact heval

/-- What an argument sees is a matter of the atoms alone. -/
theorem Fits.localBelow_seesDecided (hS : S.Fits) (I : Interpretation) (a : Nat) :
    LocalBelow S.atoms.count (S.SeesDecided I a) := by
  intro v w hvw h r hr c hc
  rw [← hS.seen_eq (Framework.mem_parents.1 hr) hvw]
  exact h r hr c hc

/-- The session has names for the conditions, and says nothing of the atoms. -/
structure OnlyNames (S : Setting) (s : NamedSession) : Prop where
  means : s.session.Means S.atoms.count fun _ ↦ True
  names : s.NamesConditions S

/-- A question leaves names and clauses as they are. -/
theorem OnlyNames.asked {s' : NamedSession} (h : S.OnlyNames s) (hnames : s'.names = s.names)
    (hs' : s.session.Asked s'.session) : S.OnlyNames s' := by
  refine ⟨h.means.asked hs', ?_⟩
  rw [NamedSession.NamesConditions, hnames, hs'.solver.clauses_eq]
  exact h.names

/-- Every argument has a name for its condition, and the clauses give the name the value of the
condition. -/
theorem OnlyNames.exists_name (h : S.OnlyNames s) (ha : a < S.framework.size) :
    ∃ l, s.names[a]? = some l ∧ ∀ v, AllHold s.session.solver.clauses v →
      l.holds v = S.verdict v a := by
  have hsolvable : Solvable s.session.solver.clauses [] := by
    rw [← h.means.pending, h.means.solvable_iff]
    exact ⟨fun _ ↦ false, trivial⟩
  exact h.names.exists_name hsolvable ha

/-- **What a condition is allowed to be** is what its name can be, with the decided parents assumed.
-/
theorem OnlyNames.ensures_allows (h : S.OnlyNames s) (hS : S.Fits) (he : e.Sound)
    {ls : List Literal} {l : Literal} (hls : ∀ v, (∀ l ∈ ls, l.holds v) ↔ S.SeesDecided I a v)
    (hl : ∀ v, AllHold s.session.solver.clauses v → (l.holds v ↔ S.verdict v a = b)) :
    (NamedSession.satisfiableWith (ls ++ [l])).Ensures e s
      (fun c s' ↦ (c ↔ S.framework.Allows I a b) ∧ s'.names = s.names ∧
        s.session.Asked s'.session)
      S.OnlyNames := by
  refine (NamedSession.ensures_satisfiableWith he h.means.pending).mono ?_
    fun s' hs' ↦ h.asked hs'.1 hs'.2
  rintro c s' ⟨hc, hnames, hs'⟩
  refine ⟨hc.trans ?_, hnames, hs'⟩
  have hlocal := (hS.localBelow_seesDecided I a).and (hS.localBelow_verdict a b)
  have hmeans := h.means.exists_iff hlocal
  simp only [true_and] at hmeans
  rw [← hS.exists_seesDecided_iff, ← hmeans]
  refine exists_congr fun v ↦ and_congr_right fun hv ↦ ?_
  simp only [List.forall_mem_append, List.forall_mem_singleton]
  rw [hls, hl v hv]

end Setting

/-! ### The verifier -/

namespace CompleteVerifier

variable {S : Setting} {e : Engine} {I : Interpretation} {s : NamedSession} {w : CompleteVerifier}
  {a : Nat} {status : Status}

/-- **One argument** is as the interpretation has it, or not. -/
theorem ensures_verifyAt (hS : S.Fits) (he : e.Sound) (hs : S.OnlyNames s)
    (hI : I.size = S.framework.size) (ha : I.status? a = some status) :
    (verifyAt S I a status).Ensures e s
      (fun b s' ↦ (b ↔ ∀ c, I.Decides a c ↔ S.framework.Forces I a c) ∧ S.OnlyNames s')
      S.OnlyNames := by
  have hlt : a < S.framework.size := hI ▸ Interpretation.lt_size_of_status? ha
  obtain ⟨ls, hseen, hls⟩ := exists_seenBy_eq hS hI hlt
  obtain ⟨l, hl, hname⟩ := hs.exists_name hlt
  -- the name and its negation ask for the two values of the condition
  have htrue : ∀ v, AllHold s.session.solver.clauses v → (l.holds v ↔ S.verdict v a = true) :=
    fun v hv ↦ by rw [hname v hv]
  have hfalse : ∀ v, AllHold s.session.solver.clauses v →
      (l.negate.holds v ↔ S.verdict v a = false) :=
    fun v hv ↦ by rw [Literal.holds_negate, hname v hv, Bool.not_eq_true']
  refine Ensures.ofExcept_bind hseen ?_
  refine (NamedSession.ensures_nameOf hl).bind ?_
  intro l' s' hl'
  obtain ⟨rfl, rfl⟩ := hl'
  -- a decided argument is as it should be if the other value is not allowed
  have hdecided : ∀ b c : Bool, I.Decides a (!b) → (c = true ↔ S.framework.Allows I a b) →
      ((!c) = true ↔ ∀ d, I.Decides a d ↔ S.framework.Forces I a d) := by
    intro b c hd hc
    rw [Framework.decides_iff_forces_of_decides hd, Bool.not_eq_true', ← Bool.not_eq_true, hc,
      Framework.not_allows_iff]
  cases status with
  | satisfied =>
    refine (hs.ensures_allows hS he hls hfalse).bind ?_
    intro c t ht
    obtain ⟨hc, hnames, ht⟩ := ht
    exact ensures_pure.2 ⟨hdecided false c ha hc, hs.asked hnames ht⟩
  | unsatisfied =>
    refine (hs.ensures_allows hS he hls htrue).bind ?_
    intro c t ht
    obtain ⟨hc, hnames, ht⟩ := ht
    exact ensures_pure.2 ⟨hdecided true c ha hc, hs.asked hnames ht⟩
  | undecided =>
    rw [Framework.decides_iff_forces_of_undecided ha]
    refine (hs.ensures_allows hS he hls htrue).bind ?_
    rintro c t ⟨hc, hnames, ht⟩
    have hasked := hs.asked hnames ht
    cases c with
    | false => exact ensures_pure.2 ⟨iff_of_false Bool.false_ne_true
        fun h ↦ Bool.false_ne_true (hc.2 h.1), hasked⟩
    | true =>
      have hclauses := ht.solver.clauses_eq
      refine (hasked.ensures_allows hS he hls (hclauses ▸ hfalse)).weaken ?_
      rintro d t' ⟨hd, hnames', ht'⟩
      exact ⟨hd.trans (and_iff_right (hc.1 rfl)).symm, hasked.asked hnames' ht'⟩

/-- **Some arguments.** The first one that is not as the interpretation has it ends the
verification. -/
theorem ensures_verifyFrom (hS : S.Fits) (he : e.Sound) (hI : I.size = S.framework.size)
    {ps : List (Nat × Status)} (hps : ∀ p ∈ ps, I.status? p.1 = some p.2) (hs : S.OnlyNames s) :
    (verifyFrom S I ps).Ensures e s
      (fun b s' ↦ (b ↔ ∀ p ∈ ps, ∀ c, I.Decides p.1 c ↔ S.framework.Forces I p.1 c) ∧
        S.OnlyNames s')
      S.OnlyNames := by
  induction ps generalizing s with
  | nil => exact ensures_pure.2 ⟨iff_of_true rfl (by simp), hs⟩
  | cons p ps ih =>
    obtain ⟨a, status⟩ := p
    obtain ⟨ha, hps⟩ := List.forall_mem_cons.1 hps
    refine (ensures_verifyAt hS he hs hI ha).bind ?_
    rintro b t ⟨hb, ht⟩
    simp only [List.forall_mem_cons, ← hb]
    cases b with
    | false => exact ensures_pure.2 ⟨iff_of_false Bool.false_ne_true
        fun h ↦ Bool.false_ne_true h.1, ht⟩
    | true => exact (ih hps ht).weaken fun b t' h ↦ ⟨h.1.trans (and_iff_right rfl).symm, h.2⟩

/-- Completeness can be verified argument by argument. -/
theorem complete_iff_entries (hI : I.size = S.framework.size) :
    S.framework.Complete I ↔
      ∀ p ∈ I.entries, ∀ c, I.Decides p.1 c ↔ S.framework.Forces I p.1 c := by
  constructor
  · rintro h ⟨a, status⟩ hp
    exact h.decides_iff a (hI ▸ Interpretation.lt_size_of_status? (Interpretation.mem_entries.1 hp))
  · intro h
    refine ⟨hI, fun a ha ↦ ?_⟩
    have hstatus := Interpretation.status?_of_lt (I := I) (hI ▸ ha)
    exact h _ (Interpretation.mem_entries.2 hstatus)

/-- The session of the verifier has names for the conditions and nothing else, or will have when it
is opened. -/
def IsReady (S : Setting) (e : Engine) (w : CompleteVerifier) : Prop :=
  w.phase.Keeps e (start S) S.OnlyNames

/-- A new verifier will have the names when it is opened. -/
theorem isReady_new (hS : S.Fits) (e : Engine) : IsReady S e {} := by
  have hstart : (start S).Ensures e () (fun s _ ↦ S.OnlyNames s) fun _ ↦ False := by
    refine NamedSession.ensures_acquire fun t ht ↦ ?_
    refine (ht.ensures_names hS.names_acceptances).weaken fun ls t' h ↦ ⟨h.1, fun v hv ↦ ?_⟩
    rw [h.2 v hv, S.map_eval_linkedCondition]
  exact hstart

/-- Preparing opens the session, and if the solver gives up it can be opened later. -/
theorem ensures_prepare (hw : w.IsReady S e) :
    (prepare S).Ensures e w (fun _ w' ↦ w'.IsReady S e) fun w' ↦ w'.IsReady S e :=
  ensures_on.2 (Lifecycle.Keeps.use hw fun _ hs ↦ ensures_pure.2 hs)

/-- The verifier is open, and its session has names for the conditions and nothing else. -/
def Opened (S : Setting) (w : CompleteVerifier) : Prop :=
  ∃ s, w.phase = .opened s ∧ S.OnlyNames s

/-- An open verifier is ready for the next candidate. -/
theorem Opened.isReady (hw : w.Opened S) : w.IsReady S e := by
  obtain ⟨s, hphase, hs⟩ := hw
  rw [IsReady, hphase]
  exact hs

/-- **The verifier accepts exactly the fixpoints of the characteristic operator**, and is open
afterwards. -/
theorem ensures_verify_opened (hS : S.Fits) (he : e.Sound) (hw : w.IsReady S e)
    (hI : I.size = S.framework.size) : (verify S I).Ensures e w
      (fun b w' ↦ (b ↔ S.framework.Complete I) ∧ w'.Opened S) fun w' ↦ w'.Opened S := by
  have hentries : ∀ p ∈ I.entries, I.status? p.1 = some p.2 :=
    fun p hp ↦ Interpretation.mem_entries.1 hp
  refine ensures_on.2 (Lifecycle.Keeps.use hw fun s hs ↦ ?_)
  rw [complete_iff_entries hI]
  refine (ensures_verifyFrom hS he hI hentries hs).mono ?_ ?_
  · exact fun b s' h ↦ ⟨h.1, s', rfl, h.2⟩
  · exact fun s' hs' ↦ ⟨s', rfl, hs'⟩

/-- The verifier is ready for one candidate after the other. -/
theorem ensures_verify (hS : S.Fits) (he : e.Sound) (hw : w.IsReady S e)
    (hI : I.size = S.framework.size) : (verify S I).Ensures e w
      (fun b w' ↦ (b ↔ S.framework.Complete I) ∧ w'.IsReady S e) fun w' ↦ w'.IsReady S e :=
  (ensures_verify_opened hS he hw hI).mono (fun _ _ h ↦ ⟨h.1, h.2.isReady⟩) fun _ h ↦ h.isReady

end CompleteVerifier

end Dialectical
