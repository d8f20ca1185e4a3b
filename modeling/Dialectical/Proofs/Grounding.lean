import Dialectical.Proofs.Confinement
import Dialectical.Proofs.Engines

/-!
# Computing the ground interpretation

The computation keeps one session. Its clauses are the encoding of conflict-freeness, names for all
conditions, and a unit clause for each decision so far. So the session is confined to what is above
an interpretation `J` of decisions (`Setting.Grounds`).

The decisions are always admissible and below the ground interpretation. That `J` is admissible is
why the rest of the encoding does no harm: an argument that `J` does not decide can see **any**
completion of `J`, while the others see completions that give them their values. So the name of a
condition can be true, or false, if and only if the condition is allowed to be
(`Grounds.solvable_iff`), and deciding what is forced keeps the decisions admissible. Nor do the
clauses for worst cases, which pruners may add, as they say nothing of what undecided arguments see
(`Grounds.ensures_addBipolar`).
-/

namespace Dialectical

open Act Clause

namespace Setting

variable {S : Setting} {e : Engine} {G I J P : Interpretation} {s : NamedSession} {a : Nat}
  {b : Bool} {given : Option Interpretation}

/-! ### The session of the computation -/

/-- The session is confined to what is above the decisions `J`, and the names have the values of the
conditions. The decisions are admissible, and below the ground interpretation `G`. -/
structure Grounds (S : Setting) (G J : Interpretation) (s : NamedSession) : Prop where
  admissible : S.framework.Admissible J
  le : J ≤ G
  confined : s.session.ConfinedTo S {I | J ≤ I}
  names : ∀ v, AllHold s.session.solver.clauses v →
    s.names.map (Literal.holds v) = S.framework.arguments.map (S.verdict v)

/-- The decisions themselves are a model. -/
theorem Grounds.solvable (h : S.Grounds G J s) (hS : S.Fits) :
    Solvable s.session.solver.clauses [] :=
  h.confined.solvable hS h.admissible (le_refl J)

/-- There is a name for each argument. -/
theorem Grounds.exists_name (h : S.Grounds G J s) (hS : S.Fits) (ha : a < S.framework.size) :
    ∃ l, s.names[a]? = some l ∧ ∀ v, AllHold s.session.solver.clauses v →
      l.holds v = S.verdict v a := by
  have hnames : s.NamesConditions S := h.names
  exact hnames.exists_name (h.solvable hS) ha

/-- **What a condition can be.** Together with the decisions, it can have exactly the values that
their completions allow. -/
theorem Grounds.solvable_iff {l : Literal} (h : S.Grounds G J s) (hS : S.Fits)
    (hl : ∀ v, AllHold s.session.solver.clauses v → (l.holds v ↔ S.verdict v a = b)) :
    Solvable s.session.solver.clauses [l] ↔ S.framework.Allows J a b := by
  rw [← h.confined.exists_verdict_iff hS h.admissible]
  refine exists_congr fun v ↦ and_congr_right fun hv ↦ ?_
  rw [← hl v hv]
  simp

/-- A question decides nothing. -/
theorem Grounds.asked {s' : NamedSession} (h : S.Grounds G J s) (hnames : s'.names = s.names)
    (hs' : s.session.Asked s'.session) : S.Grounds G J s' where
  admissible := h.admissible
  le := h.le
  confined := h.confined.asked hs'
  names := by
    rw [hnames, hs'.solver.clauses_eq]
    exact h.names

/-- The unit clause of an argument atom. -/
theorem selects_decides (S : Setting) (ha : a < S.atoms.size) :
    S.atoms.Selects [[(S.atoms.atom a b).pos]] {I | I.Decides a b} := by
  refine ⟨fun c hc ↦ ?_, fun v I h ↦ ?_⟩
  · rw [List.mem_singleton.1 hc]
    exact span_le_iff.2 (by simpa using Atoms.atom_lt ha)
  · rw [allHold_singleton, holds_singleton]
    exact h.holds_pos ha b

/-- **A decision.** Making the value that is forced permanent is a decision of the argument, unless
it was decided before. -/
theorem Grounds.ensures_add (h : S.Grounds G J s) (hS : S.Fits) (hG : S.framework.IsGround G)
    (ha : a < S.framework.size) (hf : S.framework.Forces J a b) {E : NamedSession → Prop} :
    (NamedSession.onSession (Session.add [(S.atoms.atom a b).pos])).Ensures e s
      (fun _ s' ↦ ∃ J', S.Grounds G J' s' ∧ J ≤ J' ∧ J'.Decides a b) E := by
  have hselects := selects_decides S (b := b) (hS.size_eq ▸ ha)
  -- the next decisions: the value is the one that the argument has, or it is new
  obtain ⟨J', hadm, hle, hab, hJ', habove⟩ : ∃ J', S.framework.Admissible J' ∧ J' ≤ G ∧
      J'.Decides a b ∧ J ≤ J' ∧ {I | J ≤ I} ∩ {I | I.Decides a b} = {I | J' ≤ I} := by
    rcases Interpretation.decides_or_undecided (I := J) (a := a)
      (h.admissible.size_eq ▸ ha) with ⟨c, hc⟩ | hu
    · obtain rfl : c = b := (h.admissible.forces a c hc).unique hf
      exact ⟨J, h.admissible, h.le, hc, le_refl J, Set.ext fun I ↦
        and_iff_left_of_imp fun hJI ↦ hc.mono hJI⟩
    · exact ⟨J.set a (.ofBool b), h.admissible.set hu hf,
        (Interpretation.set_le_iff hu).2 ⟨h.le, hG.decides h.le ha hf⟩,
        Interpretation.decides_set_self (h.admissible.size_eq ▸ ha),
        Interpretation.le_set_ofBool hu b, Set.ext fun I ↦ (Interpretation.set_le_iff hu).symm⟩
  refine NamedSession.ensures_onSession.2 ((h.confined.add hselects).weaken ?_)
  intro _ t ht
  refine ⟨J', ⟨hadm, hle, habove ▸ ht.1, fun v hv ↦ h.names v ?_⟩, hJ', hab⟩
  rw [ht.2] at hv
  exact (allHold_cons.1 hv).2

/-- **The worst cases do no harm**, whatever was decided. -/
theorem Grounds.ensures_addBipolar (h : S.Grounds G J s) (hS : S.Fits) (k : Nat)
    {E : NamedSession → Prop} :
    (NamedSession.onSession (S.addBipolar S.framework.allTypes k)).Ensures e s
      (fun _ s' ↦ S.Grounds G J s') E := by
  refine NamedSession.ensures_onSession.2 ((h.confined.addBipolar hS k).weaken ?_)
  intro _ t ht
  exact ⟨h.admissible, h.le, ht.1, fun v hv ↦ h.names v fun c hc ↦ hv c (ht.2 hc)⟩

/-! ### Rounds -/

/-- What the session forces on one argument is decided. -/
theorem Grounds.ensures_forcedStatus (h : S.Grounds G J s) (hS : S.Fits) (he : e.Sound)
    (hG : S.framework.IsGround G) (ha : a < S.framework.size) :
    (S.forcedStatus a).Ensures e s
      (fun status? s' ↦ match status? with
        | none => S.Grounds G J s' ∧ ∀ b, ¬S.framework.Forces J a b
        | some status => ∃ b J', status = .ofBool b ∧ S.Grounds G J' s' ∧ J ≤ J' ∧ J'.Decides a b)
      fun s' ↦ S.Grounds G J s' := by
  obtain ⟨l, hl, hname⟩ := h.exists_name hS ha
  refine (NamedSession.ensures_nameOf hl).bind ?_
  rintro _ _ ⟨rfl, rfl⟩
  have hfalse := h.solvable_iff (b := false) hS fun v hv ↦ by
    rw [Literal.holds_negate, hname v hv, Bool.not_eq_true']
  have htrue := h.solvable_iff (b := true) hS fun v hv ↦ by rw [hname v hv]
  refine ((NamedSession.ensures_satisfiableWith he h.confined.pending).weakenFault
    fun t ht ↦ h.asked ht.1 ht.2).bind ?_
  rintro c t ⟨hc, hnames, ht⟩
  rw [hfalse, ← Bool.not_true, ← Framework.not_forces_iff] at hc
  have hgrounds := h.asked hnames ht
  cases c with
  | false =>
    -- the condition cannot be false
    have hforces : S.framework.Forces J a true := by simpa using hc
    refine (hgrounds.ensures_add hS hG ha hforces).bind ?_
    rintro - t' ⟨J', hJ', hle, hab⟩
    exact ensures_pure.2 ⟨true, J', rfl, hJ', hle, hab⟩
  | true =>
    have hnot : ¬S.framework.Forces J a true := hc.1 rfl
    refine ((NamedSession.ensures_satisfiableWith he hgrounds.confined.pending).weakenFault
      fun t' ht' ↦ hgrounds.asked ht'.1 ht'.2).bind ?_
    rintro d t' ⟨hd, hnames', ht'⟩
    rw [ht.solver.clauses_eq, htrue, ← Bool.not_false, ← Framework.not_forces_iff] at hd
    have hgrounds' := hgrounds.asked hnames' ht'
    cases d with
    | false =>
      -- it can be false, but not true
      have hforces : S.framework.Forces J a false := by simpa using hd
      refine (hgrounds'.ensures_add hS hG ha hforces).bind ?_
      rintro - t'' ⟨J', hJ', hle, hab⟩
      exact ensures_pure.2 ⟨false, J', rfl, hJ', hle, hab⟩
    | true =>
      refine ensures_pure.2 ⟨hgrounds', fun b ↦ ?_⟩
      cases b with
      | true => exact hnot
      | false => exact hd.1 rfl

/-- The interpretation to be extended is contradicted only if it is not below the ground
interpretation. -/
theorem contradicts_eq (hgiven : ∀ P ∈ given, P.size = S.framework.size)
    (ha : a < S.framework.size) (hab : G.Decides a b) :
    ∃ c, contradicts given a (.ofBool b) = .ok c ∧ (c = true → ∃ P ∈ given, ¬P ≤ G) := by
  cases given with
  | none => exact ⟨false, rfl, Bool.noConfusion⟩
  | some P =>
    have hP : a < P.size := hgiven P rfl ▸ ha
    have hstatus := Interpretation.status_eq_ok.2 (Interpretation.status?_of_lt hP)
    refine ⟨_, by rw [contradicts, hstatus]; rfl, fun hc ↦ ⟨P, rfl, fun hle ↦ ?_⟩⟩
    simp only [ne_eq, Bool.and_eq_true, decide_eq_true_eq] at hc
    rcases Interpretation.decides_or_undecided hP with ⟨d, hd⟩ | hu
    · have hPa : P.statuses[a] = .ofBool d :=
        Option.some.inj ((Interpretation.status?_of_lt hP).symm.trans hd)
      exact hc.2 (hPa.trans (congrArg _ ((hd.mono hle).unique hab)))
    · exact hc.1 (Option.some.inj ((Interpretation.status?_of_lt hP).symm.trans hu))

/-- Every argument has a label for the log. -/
theorem exists_label (ha : a < S.framework.size) :
    ∃ label, S.framework.labels.label a = .ok label := by
  have hlt : a < S.framework.labels.toList.length := ha
  exact ⟨_, by rw [LabelSet.label, Fault.lookup, List.getElem?_eq_getElem hlt]⟩

/-- **A round** over undecided arguments enlarges the interpretation, or the session forces nothing
on any of them. It is broken off only if the ground interpretation does not extend the given one. -/
theorem Grounds.ensures_groundRound (h : S.Grounds G J s) (hS : S.Fits) (he : e.Sound)
    (hG : S.framework.IsGround G) (hgiven : ∀ P ∈ given, P.size = S.framework.size) {as : List Nat}
    (has : as.Nodup) (hu : ∀ a ∈ as, I.status? a = some .undecided) (hI : I ≤ J) :
    (S.groundRound given as I).Ensures e s
      (fun next? s' ↦ ∃ J', S.Grounds G J' s' ∧ match next? with
        | none => ∃ P ∈ given, ¬P ≤ G
        | some next => next ≤ J' ∧ (I < next ∨
          next = I ∧ J' = J ∧ ∀ a ∈ as, ∀ b, ¬S.framework.Forces J a b))
      fun s' ↦ ∃ J', S.Grounds G J' s' := by
  induction as generalizing I J s with
  | nil => exact ensures_pure.2 ⟨J, h, hI, .inr ⟨rfl, rfl, by simp⟩⟩
  | cons a as ih =>
    have ha : a < S.framework.size :=
      h.admissible.size_eq ▸ hI.1 ▸ Interpretation.lt_size_of_status? (hu a (by simp))
    have hnodup := List.nodup_cons.1 has
    refine ((h.ensures_forcedStatus hS he hG ha).weakenFault fun t ht ↦ ⟨J, ht⟩).bind ?_
    rintro (_ | status) t ht
    · -- nothing is forced on `a`
      obtain ⟨hJ, hnot⟩ := ht
      refine (ih hJ hnodup.2 (fun d hd ↦ hu d (by simp [hd])) hI).weaken ?_
      rintro (_ | next) t' ⟨J', hJ', hnext⟩
      · exact ⟨J', hJ', hnext⟩
      · refine ⟨J', hJ', hnext.1, hnext.2.imp_right fun hsame ↦ ⟨hsame.1, hsame.2.1, ?_⟩⟩
        exact List.forall_mem_cons.2 ⟨hnot, hsame.2.2⟩
    · obtain ⟨b, J', rfl, hJ', hle, hab⟩ := ht
      obtain ⟨c, hc, hcontra⟩ := contradicts_eq hgiven ha (hab.mono hJ'.le)
      refine Ensures.ofExcept_bind hc ?_
      cases c with
      | true =>
        -- the given interpretation decides `a` otherwise; the label is for the message
        obtain ⟨label, hlabel⟩ := exists_label ha
        refine Ensures.ofExcept_bind hlabel ?_
        exact Ensures.log_bind (ensures_pure.2 ⟨J', hJ', hcontra rfl⟩)
      | false =>
        -- the other arguments stay undecided, and the interpretation is strictly larger
        have hua := hu a (by simp)
        have hset : I.set a (.ofBool b) ≤ J' :=
          (Interpretation.set_le_iff hua).2 ⟨hI.trans hle, hab⟩
        have hlt : I < I.set a (.ofBool b) := Interpretation.lt_set_ofBool hua b
        have hu' : ∀ d ∈ as, (I.set a (.ofBool b)).status? d = some .undecided := by
          intro d hd
          have hne : d ≠ a := fun heq ↦ hnodup.1 (heq ▸ hd)
          rw [Interpretation.status?_set_of_ne hne]
          exact hu d (by simp [hd])
        refine (ih hJ' hnodup.2 hu' hset).weaken ?_
        rintro (_ | next) t' ⟨J'', hJ'', hnext⟩
        · exact ⟨J'', hJ'', hnext⟩
        · refine ⟨J'', hJ'', hnext.1, .inl ?_⟩
          rcases hnext.2 with hnext | ⟨rfl, -⟩
          · exact hlt.trans hnext
          · exact hlt

/-- **The rounds** end with the ground interpretation, after at most one round more than there are
undecided arguments. -/
theorem Grounds.ensures_groundRounds (h : S.Grounds G J s) (hS : S.Fits) (he : e.Sound)
    (hG : S.framework.IsGround G) (hgiven : ∀ P ∈ given, P.size = S.framework.size) {n done : Nat}
    (hI : I ≤ J) (hn : I.undecided.length < n) :
    (S.groundRounds given n done I).Ensures e s
      (fun result? s' ↦ ∃ J', S.Grounds G J' s' ∧ match result? with
        | none => ∃ P ∈ given, ¬P ≤ G
        | some (rounds, K) => K = G ∧ rounds ≤ done + I.undecided.length + 1)
      fun s' ↦ ∃ J', S.Grounds G J' s' := by
  induction n generalizing I J s done with
  | zero => exact absurd hn (Nat.not_lt_zero _)
  | succ n ih =>
    have hu : ∀ a ∈ I.undecided, I.status? a = some .undecided :=
      fun _ ↦ Interpretation.mem_undecided.1
    refine (h.ensures_groundRound hS he hG hgiven (List.nodup_range.filter _) hu hI).bind ?_
    rintro (_ | next) t ⟨J', hJ', hnext⟩
    · exact ensures_pure.2 ⟨J', hJ', hnext⟩
    · obtain ⟨hle, hlt | ⟨rfl, rfl, hnot⟩⟩ := hnext
      · have hfewer := Framework.undecided_lt_of_lt hlt
        show Ensures e (if next = I then _ else _) t _ _
        rw [if_neg hlt.ne']
        refine (ih hJ' hle (by omega)).weaken ?_
        rintro (_ | ⟨rounds, K⟩) t' ⟨J'', hJ'', hresult⟩
        · exact ⟨J'', hJ'', hresult⟩
        · exact ⟨J'', hJ'', hresult.1, by omega⟩
      · show Ensures e (if next = next then _ else _) t _ _
        rw [if_pos rfl]
        -- nothing is forced on what the interpretation leaves open, so it has all decisions
        have hopen : ∀ a b, next.status? a = some .undecided → ¬S.framework.Forces J' a b :=
          fun a b hua ↦ hnot a (Interpretation.mem_undecided.2 hua) b
        have hundecided : ∀ a b, J'.Decides a b → next.Decides a b := by
          intro a b hab
          rcases Interpretation.decides_or_undecided (I := next) (a := a)
            (hle.1 ▸ hab.lt_size) with ⟨c, hc⟩ | hua
          · rwa [hab.unique (hc.mono hle)]
          · exact absurd (hJ'.admissible.forces a b hab) (hopen a b hua)
        obtain rfl : next = J' := le_antisymm hle ⟨hle.1.symm, hundecided⟩
        have hGeq := hG.eq_of_le hJ'.le hJ'.admissible hopen
        exact ensures_pure.2 ⟨next, hJ', hGeq, by omega⟩

/-- The ground interpretation is found if and only if it extends the given one. -/
theorem Grounds.ensures_groundFixpoint (h : S.Grounds G J s) (hS : S.Fits) (he : e.Sound)
    (hG : S.framework.IsGround G) (hgiven : ∀ P ∈ given, P.size = S.framework.size) :
    (S.groundFixpoint given).Ensures e s
      (fun result? s' ↦ (∃ J', S.Grounds G J' s') ∧
        ∀ K, result? = some K ↔ K = G ∧ ∀ P ∈ given, P ≤ G)
      fun s' ↦ ∃ J', S.Grounds G J' s' := by
  have hblank : .blank S.framework.size ≤ J := Interpretation.blank_le h.admissible.size_eq
  have hlen := Framework.length_undecided_blank S.framework.size
  refine (h.ensures_groundRounds hS he hG hgiven hblank (by omega)).bind ?_
  rintro (_ | ⟨rounds, K⟩) t ⟨J', hJ', hresult⟩
  · obtain ⟨P, hP, hnot⟩ := hresult
    refine ensures_pure.2 ⟨⟨J', hJ'⟩, fun K ↦ iff_of_false (Option.some_ne_none K).symm ?_⟩
    exact fun hall ↦ hnot (hall.2 P hP)
  · obtain ⟨rfl, -⟩ := hresult
    refine Ensures.log_bind ?_
    cases given with
    | none => exact ensures_pure.2 ⟨⟨J', hJ'⟩, fun K' ↦ by simp [eq_comm]⟩
    | some P =>
      have hextends := Interpretation.extends?_iff (hG.size_eq.trans (hgiven P rfl).symm)
      show Ensures e (if K.extends? P then _ else _) t _ _
      by_cases hP : P ≤ K
      · rw [if_pos (hextends.2 hP)]
        exact ensures_pure.2 ⟨⟨J', hJ'⟩, fun K' ↦ by simp [hP, eq_comm]⟩
      · rw [if_neg (mt hextends.1 hP)]
        exact Ensures.log_bind (ensures_pure.2 ⟨⟨J', hJ'⟩, fun K' ↦ by simp [hP]⟩)

/-! ### The generator -/

/-- Afterwards the session has no models. -/
theorem Grounds.ensures_exhaust (h : S.Grounds G J s) {E : NamedSession → Prop} :
    exhaust.Ensures e s (fun _ s' ↦ s'.session.Offers S.atoms ∅) E := by
  obtain ⟨P, hP, -⟩ := h.confined
  refine NamedSession.ensures_onSession.2 (hP.ensures_contradict.weaken fun _ s' hs' ↦ ?_)
  exact ⟨_, hs', fun _ ↦ False.elim, fun _ ↦ False.elim⟩

/-- **The ground interpretation** is given if it extends the given one, and nothing is left. -/
theorem Grounds.ensures_nextGround (h : S.Grounds G J s) (hS : S.Fits) (he : e.Sound)
    (hG : S.framework.IsGround G) (hgiven : ∀ P ∈ given, P.size = S.framework.size) :
    (S.nextGround given).Ensures e s
      (fun result? s' ↦ s'.session.Offers S.atoms ∅ ∧
        ∀ K, result? = some K ↔ K = G ∧ ∀ P ∈ given, P ≤ G)
      fun s' ↦ ∃ J', S.Grounds G J' s' := by
  refine ((NamedSession.ensures_satisfiableWith he h.confined.pending).weakenFault
    fun t ht ↦ ⟨J, h.asked ht.1 ht.2⟩).bind ?_
  rintro b t ⟨hb, hnames, ht⟩
  obtain rfl : b = true := hb.2 (h.solvable hS)
  refine ((h.asked hnames ht).ensures_groundFixpoint hS he hG hgiven).bind ?_
  rintro result? t' ⟨⟨J', hJ'⟩, hresult⟩
  exact hJ'.ensures_exhaust.bind fun _ t'' ht'' ↦ ensures_pure.2 ⟨ht'', hresult⟩

end Setting

namespace Generator

variable {S : Setting} {e : Engine} {G : Interpretation} {given : Option Interpretation}

/-- A new session of the ground generator has no decisions. -/
theorem ensures_start_ground (hS : S.Fits) (hG : S.framework.IsGround G) {E : Unit → Prop} :
    (start S .ground given).Ensures e ()
      (fun s _ ↦ S.Grounds G (.blank S.framework.size) s) E := by
  refine NamedSession.ensures_acquire fun t ht ↦ ?_
  obtain ⟨m, D, hD, hmean⟩ := hS.imposes_conflictFree.gives _ ht.le_known
  obtain ⟨ls, m', D', hD', hmean', hls⟩ := hS.names_acceptances m (ht.le_known.trans hD.le)
  have hgives : (encoding S .ground given).Gives t.solver.known ls m' (D ++ D') :=
    Encoder.gives_bind hD hD'
  refine (Session.ensures_perform hgives).bind ?_
  rintro _ _ ⟨rfl, rfl⟩
  refine ensures_logOpening.bind ?_
  rintro - _ rfl
  have hlocal := hS.imposes_conflictFree.localBelow
  have hmeans := ht.told hgives.le hgives.span_le
    ((hmean.append hD.span_le hmean' hD.le (localBelow_const _ True)).congr
      fun v ↦ and_iff_left trivial) hlocal
  refine ensures_pure.2 ⟨S.framework.admissible_blank, hG.blank_le, ?_, fun v hv ↦ ?_⟩
  · refine (hmeans.congr fun v ↦ ?_).confinedTo
    refine (true_and _).to_iff.trans (exists_congr fun I ↦ ?_)
    refine and_congr_left fun hv ↦ iff_of_true trivial (Interpretation.blank_le ?_)
    exact hv.encodes.size_eq.trans hS.size_eq
  · have hv' := (allHold_append.1 (allHold_reverse.1 (allHold_append.1 hv).1)).2
    rw [hls v hv', S.map_eval_linkedCondition]

/-- The generator of the ground interpretation, which was not given yet. -/
def Grounding (e : Engine) (S : Setting) (G : Interpretation) (given : Option Interpretation)
    (g : Generator) : Prop :=
  g.Keeps S e .ground given fun s ↦ ∃ J, S.Grounds G J s

/-- A new generator has not given the ground interpretation yet. -/
theorem grounding_new (hS : S.Fits) (hG : S.framework.IsGround G)
    (given : Option Interpretation) : (new .ground given).Grounding e S G given :=
  ⟨rfl, rfl, (ensures_start_ground hS hG).weaken fun _ _ h ↦ ⟨_, h⟩⟩

/-- **The generator of the ground interpretation** gives it if it extends the given one, and has
nothing to offer from then on. -/
theorem Grounding.next {g : Generator} (h : g.Grounding e S G given) (hS : S.Fits) (he : e.Sound)
    (hG : S.framework.IsGround G) (hgiven : ∀ P ∈ given, P.size = S.framework.size) :
    (Generator.next S).Ensures e g
      (fun result? g' ↦ g'.Offers S ∅ ∧ ∀ K, result? = some K ↔ K = G ∧ ∀ P ∈ given, P ≤ G)
      fun g' ↦ g'.Grounding e S G given := by
  rw [Generator.next, ensures_get_bind, h.goal_eq, ensures_get_bind, h.given_eq]
  have hnext : ∀ s, (∃ J, S.Grounds G J s) → (S.nextGround given).Ensures e s
      (fun result? s' ↦ s'.session.Offers S.atoms ∅ ∧
        ∀ K, result? = some K ↔ K = G ∧ ∀ P ∈ given, P ≤ G)
      fun s' ↦ ∃ J', S.Grounds G J' s' := by
    intro s hs
    obtain ⟨J, hs⟩ := hs
    exact hs.ensures_nextGround hS he hG hgiven
  refine (h.use hnext).mono ?_ ?_
  · intro result? g' hg'
    obtain ⟨-, -, t, ht, hoffers, hresult⟩ := hg'
    exact ⟨⟨⟨t, ht, hoffers⟩, fun _ ↦ rfl⟩, hresult⟩
  · exact fun g' hg' ↦ hg'.keeps

/-- What a generator gives if it is asked again and again: what it offers, or the ground
interpretation if this was not given yet and extends the given one. -/
inductive Owes (e : Engine) (S : Setting) : Set Interpretation → Generator → Prop
  | offer {R : Set Interpretation} {g : Generator} (h : g.Offers S R) : Owes e S R g
  | ground {G : Interpretation} {given : Option Interpretation} {g : Generator}
      (hG : S.framework.IsGround G) (hgiven : ∀ P ∈ given, P.size = S.framework.size)
      (h : g.Grounding e S G given) : Owes e S {I | I = G ∧ ∀ P ∈ given, P ≤ I} g

/-- Everything that is owed is about the arguments of the framework. -/
theorem Owes.size_eq {R : Set Interpretation} {g : Generator} (h : g.Owes e S R) (hS : S.Fits) :
    ∀ I ∈ R, I.size = S.atoms.size := by
  intro I hI
  cases h with
  | offer h => exact h.size_eq I hI
  | ground hG =>
    rw [hI.1, hG.size_eq]
    exact hS.size_eq.symm

/-- **What is owed is given**, one by one, and from the first time on it is what is offered. -/
theorem Owes.next {R : Set Interpretation} {g : Generator} (h : g.Owes e S R) (hS : S.Fits)
    (he : e.Sound) :
    (Generator.next S).Ensures e g (fun I? g' ↦ ∃ R', Drawn R I? R' ∧ g'.Offers S R')
      fun g' ↦ g'.Owes e S R := by
  cases h with
  | offer h => exact (h.next he).weakenFault fun _ hg' ↦ .offer hg'
  | ground hG hgiven h =>
    refine (h.next hS he hG hgiven).mono ?_ fun g' hg' ↦ .ground hG hgiven hg'
    intro I? g' hg'
    obtain ⟨hoffers, hresult⟩ := hg'
    refine ⟨∅, ?_, hoffers⟩
    cases I? with
    | none =>
      refine ⟨Set.eq_empty_of_forall_notMem fun I hI ↦ ?_, rfl⟩
      exact Option.some_ne_none I ((hresult I).2 ⟨hI.1, hI.1 ▸ hI.2⟩).symm
    | some K =>
      have hK := (hresult K).1 rfl
      refine ⟨⟨hK.1, hK.1 ▸ hK.2⟩, (Set.sdiff_eq_empty.2 ?_).symm⟩
      exact fun I hI ↦ hI.1.trans hK.1.symm

/-- However many rounds are allowed, few are needed. -/
theorem Grounding.rounds {g : Generator} (h : g.Grounding e S G given) (hS : S.Fits) (he : e.Sound)
    (hG : S.framework.IsGround G) {n : Nat} (hn : S.framework.size < n) :
    (useNamed S do
      let _ ← NamedSession.satisfiableWith []
      S.groundRounds none n 0 (.blank S.framework.size)).Ensures e g
      (fun result? _ ↦ ∃ rounds, result? = some (rounds, G) ∧ rounds ≤ S.framework.size + 1)
      fun _ ↦ True := by
  have hrounds : ∀ s, (∃ J, S.Grounds G J s) → Ensures e (do
      let _ ← NamedSession.satisfiableWith []
      S.groundRounds none n 0 (.blank S.framework.size)) s
      (fun result? _ ↦ ∃ rounds, result? = some (rounds, G) ∧ rounds ≤ S.framework.size + 1)
      fun s' ↦ ∃ J, S.Grounds G J s' := by
    rintro s ⟨J, hs⟩
    refine ((NamedSession.ensures_satisfiableWith he hs.confined.pending).weakenFault
      fun t ht ↦ ⟨J, hs.asked ht.1 ht.2⟩).bind ?_
    rintro - s' ⟨-, hnames, hasked⟩
    have hblank : .blank S.framework.size ≤ J := Interpretation.blank_le hs.admissible.size_eq
    have hlen := Framework.length_undecided_blank S.framework.size
    have hnone : ∀ P ∈ (none : Option Interpretation), P.size = S.framework.size := by simp
    refine ((hs.asked hnames hasked).ensures_groundRounds hS he hG hnone hblank
      (by omega)).weaken ?_
    rintro (_ | ⟨rounds, K⟩) t ⟨J', -, hresult⟩
    · obtain ⟨P, hP, -⟩ := hresult
      exact absurd hP.symm (Option.some_ne_none P)
    · exact ⟨rounds, by rw [hresult.1], by omega⟩
  refine (h.use hrounds).mono (fun result? g' hg' ↦ ?_) fun _ _ ↦ trivial
  obtain ⟨-, -, s, -, hresult⟩ := hg'
  exact hresult

/-- A generator with nothing to offer gives nothing, as often as it is asked. -/
theorem Offers.mapM_next {g : Generator} (h : g.Offers S ∅) (he : e.Sound) (as : List Nat) :
    (as.mapM fun _ ↦ Generator.next S).Ensures e g
      (fun results g' ↦ results = as.map (fun _ ↦ none) ∧ g'.Offers S ∅)
      fun g' ↦ g'.Offers S ∅ := by
  refine ensures_mapM (fun _ _ g' hg' ↦ (hg'.next he).weaken ?_) h
  rintro (_ | I) g'' ⟨R', hdrawn, hR'⟩
  · exact ⟨rfl, hdrawn.2 ▸ hR'⟩
  · exact absurd hdrawn.1 (Set.notMem_empty I)

/-- The results of a generator that is asked again and again: the ground interpretation at first, if
it extends the given one, and nothing from then on. -/
theorem Grounding.mapM_next {g : Generator} (h : g.Grounding e S G given) (hS : S.Fits)
    (he : e.Sound) (hG : S.framework.IsGround G)
    (hgiven : ∀ P ∈ given, P.size = S.framework.size) (m : Nat) :
    ((List.range (m + 1)).mapM fun _ ↦ Generator.next S).Ensures e g
      (fun results _ ↦ ∃ result?, results = result? :: List.replicate m none ∧
        ∀ K, result? = some K ↔ K = G ∧ ∀ P ∈ given, P ≤ G)
      fun _ ↦ True := by
  rw [List.range_succ_eq_map, List.mapM_cons]
  refine ((h.next hS he hG hgiven).weakenFault fun _ _ ↦ trivial).bind ?_
  rintro result? g' ⟨hg', hresult⟩
  refine ((hg'.mapM_next he _).weakenFault fun _ _ ↦ trivial).bind ?_
  rintro results g'' ⟨rfl, -⟩
  refine ensures_pure.2 ⟨result?, ?_, hresult⟩
  rw [List.map_const', List.length_map, List.length_range]

/-- **The generator of the ground interpretation.** There is a least fixpoint of the characteristic
operator, which is found within one more round than there are arguments, however many are allowed.
The first time a generator is asked it gives this fixpoint if it extends the given interpretation,
and nothing otherwise; afterwards it gives nothing. -/
theorem next_ground (F : Framework) (e : Engine) (he : e.Correct) :
    ∃ G, F.IsGround G ∧
      (∀ n > F.size, ∀ j, ∃ rounds g' j',
        (useNamed (.of F) do
          let _ ← NamedSession.satisfiableWith []
          (Setting.of F).groundRounds none n 0 (.blank F.size)).run e (.new .ground none) j =
            ⟨.ok (some (rounds, G)), g', j'⟩ ∧ rounds ≤ F.size + 1) ∧
      ∀ given : Option Interpretation, (∀ J ∈ given, J.size = F.size) → ∀ m j, ∃ result? g' j',
        ((List.range (m + 1)).mapM fun _ ↦ Generator.next (.of F)).run e (.new .ground given) j =
            ⟨.ok (result? :: List.replicate m none), g', j'⟩ ∧
          ∀ K, result? = some K ↔ K = G ∧ ∀ J ∈ given, J ≤ G := by
  have hS := Setting.fits_of F
  obtain ⟨G, hG⟩ := F.exists_isGround
  refine ⟨G, hG, fun n hn j ↦ ?_, fun given hgiven m j ↦ ?_⟩
  · obtain ⟨_, g', j', hrun, rounds, rfl, hrounds⟩ :=
      ((grounding_new hS hG none).rounds hS he.sound hG hn).exists_ok he.decisive j
    exact ⟨rounds, g', j', hrun, hrounds⟩
  · obtain ⟨_, g', j', hrun, result?, rfl, hresult⟩ :=
      ((grounding_new hS hG given).mapM_next hS he.sound hG hgiven m).exists_ok he.decisive j
    exact ⟨result?, g', j', hrun, hresult⟩

/-- Nothing extends a decision between arguments that exclude each other. -/
theorem next_ground_mutualExclusion : Engine.exhaustive.Correct ∧ ∃ g' j',
    ((List.range 2).mapM fun _ ↦ Generator.next (.of .mutualExclusion)).run .exhaustive
      (.new .ground (some ⟨[.satisfied, .undecided]⟩)) .empty = ⟨.ok [none, none], g', j'⟩ := by
  refine ⟨Engine.exhaustive_correct, ?_⟩
  obtain ⟨G, hG, -, hnext⟩ := next_ground .mutualExclusion .exhaustive Engine.exhaustive_correct
  obtain rfl := hG.unique Framework.isGround_mutualExclusion
  obtain ⟨result?, g', j', hrun, hresult⟩ :=
    hnext (some ⟨[.satisfied, .undecided]⟩) (by rintro _ ⟨⟩; rfl) 1 .empty
  have hnone : result? = none := by
    refine Option.eq_none_iff_forall_ne_some.2 fun K hK ↦ ?_
    have hle := ((hresult K).1 hK).2 _ rfl
    exact Interpretation.not_decides_blank (hle.2 0 true rfl)
  exact ⟨g', j', hnone ▸ hrun⟩

end Generator

end Dialectical
