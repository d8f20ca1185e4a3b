import Dialectical.Act
import Mathlib.Order.Nat

/-!
# Reasoning about actions

`x.Ensures e s Q E` says how the action `x` ends when the engine `e` runs it from the state `s`:
with a value and a state as `Q` says, or with the fault that the engine gave up and a state as `E`
says. No other fault is possible, and an engine that always decides leaves only the first ending
(`Ensures.exists_ok`). Since an engine may answer by the number of the call, what is ensured holds
for every way to choose models.

Of the journal one thing is said: an action ends with a fault if **and only if** one of its calls
was not answered (`Ensures.fault_iff`). So no answer that is missing is ever taken for one that was
given, and what is ensured of a value does not depend on calls that were given up.

There is one rule for each way to put actions together. The basic actions have equivalences, which
serve for rewriting; sequencing is `Ensures.bind`.
-/

namespace Dialectical

variable {σ τ α β : Type} {e : Engine}

/-! ### Calls that are not answered -/

/-- The event is a call that the solver gave up. -/
def Event.isUnanswered : Event → Bool
  | .solved _ _ none => true
  | _ => false

/-- The number of calls that were given up. -/
def Journal.unanswered (j : Journal) : Nat := j.trace.countP Event.isUnanswered

/-- Only calls that were given up count. -/
theorem Journal.unanswered_note (j : Journal) (ev : Event) :
    (j.note ev).unanswered = j.unanswered + if ev.isUnanswered then 1 else 0 := by
  cases ev <;> exact Array.countP_push

/-! ### Outcomes -/

/-- The outcome is a value and a state as `Q` says, and all calls since the journal `j` were
answered; or one of them was not, the engine gave up, and the state is as `E` says. -/
def Outcome.Meets (e : Engine) (j : Journal) (o : Outcome σ α) (Q : α → σ → Prop) (E : σ → Prop) :
    Prop :=
  match o.result with
  | .ok a => Q a o.state ∧ o.journal.unanswered = j.unanswered
  | .error fault =>
    fault = .unknownAnswer ∧ ¬e.Decisive ∧ E o.state ∧ j.unanswered < o.journal.unanswered

@[simp]
theorem Outcome.meets_ok {a : α} {s : σ} {i j : Journal} {Q : α → σ → Prop} {E : σ → Prop} :
    Outcome.Meets e j ⟨.ok a, s, i⟩ Q E ↔ Q a s ∧ i.unanswered = j.unanswered := Iff.rfl

@[simp]
theorem Outcome.meets_error {fault : Fault} {s : σ} {i j : Journal} {Q : α → σ → Prop}
    {E : σ → Prop} : Outcome.Meets e j (⟨.error fault, s, i⟩ : Outcome σ α) Q E ↔
      fault = .unknownAnswer ∧ ¬e.Decisive ∧ E s ∧ j.unanswered < i.unanswered := Iff.rfl

/-- What is said of an outcome seen as part of something else is said of the part. -/
@[simp]
theorem Outcome.meets_mapState {o : Outcome τ α} {f : τ → σ} {j : Journal} {Q : α → σ → Prop}
    {E : σ → Prop} :
    (o.mapState f).Meets e j Q E ↔ o.Meets e j (fun a t ↦ Q a (f t)) fun t ↦ E (f t) := by
  rcases o with ⟨fault | a, t, i⟩ <;> exact Iff.rfl

/-- Of the journal before, only the number of calls without an answer matters. -/
theorem Outcome.Meets.since {o : Outcome σ α} {i j : Journal} {Q : α → σ → Prop} {E : σ → Prop}
    (h : o.Meets e i Q E) (hij : i.unanswered = j.unanswered) : o.Meets e j Q E := by
  rw [Outcome.Meets, ← hij]
  exact h

/-- Of the journal after, only the number of calls without an answer matters. -/
theorem Outcome.Meets.until {o : Outcome σ α} {i j : Journal} {Q : α → σ → Prop} {E : σ → Prop}
    (h : o.Meets e j Q E) (hi : i.unanswered = o.journal.unanswered) :
    Outcome.Meets e j ⟨o.result, o.state, i⟩ Q E := by
  rw [Outcome.Meets, hi]
  exact h

namespace Act

/-- The action ends with a value and a state as `Q` says, or the engine gave up and the state is as
`E` says. -/
def Ensures (e : Engine) (x : Act σ α) (s : σ) (Q : α → σ → Prop) (E : σ → Prop) : Prop :=
  ∀ j, (x.run e s j).Meets e j Q E

section

variable {s : σ} {Q Q' : α → σ → Prop} {E E' : σ → Prop}

/-- Run by an engine that always decides, an action ends with a value. -/
theorem Ensures.exists_ok {x : Act σ α} (h : x.Ensures e s Q E) (he : e.Decisive) (j : Journal) :
    ∃ a s' j', x.run e s j = ⟨.ok a, s', j'⟩ ∧ Q a s' := by
  have hj := h j
  rcases hrun : x.run e s j with ⟨fault | a, s', j'⟩ <;> rw [hrun] at hj
  · exact absurd he hj.2.1
  · exact ⟨a, s', j', rfl, hj.1⟩

/-- What cannot fail ends with a value, whatever the engine does. -/
theorem Ensures.exists_run {x : Act σ α} (h : x.Ensures e s Q fun _ ↦ False) (j : Journal) :
    ∃ a s' j', x.run e s j = ⟨.ok a, s', j'⟩ ∧ Q a s' := by
  have hj := h j
  rcases hrun : x.run e s j with ⟨fault | a, s', j'⟩ <;> rw [hrun] at hj
  · exact hj.2.2.1.elim
  · exact ⟨a, s', j', rfl, hj.1⟩

/-- **A fault means that a call was not answered**, and only then an action ends with one. -/
theorem Ensures.fault_iff {x : Act σ α} (h : x.Ensures e s Q E) (j : Journal) :
    (x.run e s j).result = .error .unknownAnswer ↔
      j.unanswered < (x.run e s j).journal.unanswered := by
  have hj := h j
  rcases hrun : x.run e s j with ⟨fault | a, s', j'⟩ <;> rw [hrun] at hj
  · exact iff_of_true (congrArg _ hj.1) hj.2.2.2
  · exact iff_of_false (by simp) (Nat.not_lt.2 hj.2.le)

/-- There is no other fault. -/
theorem Ensures.eq_unknownAnswer {x : Act σ α} (h : x.Ensures e s Q E) {j : Journal}
    {fault : Fault} (hfault : (x.run e s j).result = .error fault) : fault = .unknownAnswer := by
  have hj := h j
  rw [Outcome.Meets, hfault] at hj
  exact hj.1

/-- Weakens what is ensured, for both ends of an action. -/
theorem Ensures.mono {x : Act σ α} (h : x.Ensures e s Q E) (hQ : ∀ a s', Q a s' → Q' a s')
    (hE : ∀ s', E s' → E' s') : x.Ensures e s Q' E' := by
  intro j
  have hj := h j
  rcases hrun : x.run e s j with ⟨fault | a, s', j'⟩ <;> rw [hrun] at hj
  · exact ⟨hj.1, hj.2.1, hE s' hj.2.2.1, hj.2.2.2⟩
  · exact ⟨hQ a s' hj.1, hj.2⟩

/-- Weakens what is ensured of the value and the state. -/
theorem Ensures.weaken {x : Act σ α} (h : x.Ensures e s Q E) (hQ : ∀ a s', Q a s' → Q' a s') :
    x.Ensures e s Q' E :=
  h.mono hQ fun _ ↦ id

/-- Weakens what is ensured of the state if the engine gave up. -/
theorem Ensures.weakenFault {x : Act σ α} (h : x.Ensures e s Q E) (hE : ∀ s', E s' → E' s') :
    x.Ensures e s Q E' :=
  h.mono (fun _ _ ↦ id) hE

/-- **Sequencing.** -/
theorem Ensures.bind {x : Act σ α} {f : α → Act σ β} {R : β → σ → Prop} (h : x.Ensures e s Q E)
    (hf : ∀ a s', Q a s' → (f a).Ensures e s' R E) : (x >>= f).Ensures e s R E := by
  intro j
  have hj := h j
  rw [run_bind]
  rcases hrun : x.run e s j with ⟨fault | a, s', j'⟩ <;> rw [hrun] at hj
  · exact hj
  · exact (hf a s' hj.1 j').since hj.2

/-! ### Basic actions -/

@[simp]
theorem ensures_pure {a : α} : (pure a : Act σ α).Ensures e s Q E ↔ Q a s :=
  ⟨fun h ↦ (h .empty).1, fun h _ ↦ ⟨h, rfl⟩⟩

@[simp]
theorem ensures_get_bind {f : σ → Act σ α} :
    (get >>= f).Ensures e s Q E ↔ (f s).Ensures e s Q E := Iff.rfl

@[simp]
theorem ensures_modify {f : σ → σ} {Q : Unit → σ → Prop} :
    (modify f).Ensures e s Q E ↔ Q () (f s) :=
  ⟨fun h ↦ (h .empty).1, fun h _ ↦ ⟨h, rfl⟩⟩

@[simp]
theorem ensures_modify_bind {f : σ → σ} {g : Unit → Act σ α} :
    (modify f >>= g).Ensures e s Q E ↔ (g ()).Ensures e (f s) Q E := Iff.rfl

/-- What is written to the journal does not matter, unless it is a call that is not answered. -/
theorem ensures_record {f : Journal → Journal} {Q : Unit → σ → Prop}
    (hf : ∀ j, (f j).unanswered = j.unanswered) : (record f).Ensures e s Q E ↔ Q () s :=
  ⟨fun h ↦ (h .empty).1, fun h j ↦ ⟨h, hf j⟩⟩

/-- Writing a log record ensures what was so before. -/
@[simp]
theorem ensures_log {l : Level} {c : Component} {m : String} {Q : Unit → σ → Prop} :
    (log l c m).Ensures e s Q E ↔ Q () s :=
  ensures_record fun _ ↦ rfl

/-- What is logged does not matter for what comes after. -/
theorem Ensures.log_bind {l : Level} {c : Component} {m : String} {f : Unit → Act σ α}
    (h : (f ()).Ensures e s Q E) : (log l c m >>= f).Ensures e s Q E :=
  fun _ ↦ h _

/-- A pure computation ensures something of its value if it has one; its faults are excluded here.
-/
theorem ensures_ofExcept {x : Except Fault α} {a : α} (hx : x = .ok a) (h : Q a s) :
    (ofExcept x).Ensures e s Q E := by
  subst hx
  exact fun _ ↦ ⟨h, rfl⟩

/-- Going on after something that has a result. -/
theorem Ensures.ofExcept_bind {x : Except Fault β} {b : β} {f : β → Act σ α} (hx : x = .ok b)
    (h : (f b).Ensures e s Q E) : (ofExcept x >>= f).Ensures e s Q E := by
  subst hx
  exact fun _ ↦ h _

/-- An action that is repeated for the elements of a list, with an invariant. -/
theorem ensures_forM {as : List β} {f : β → Act σ PUnit} {I : σ → Prop}
    (h : ∀ a ∈ as, ∀ s', I s' → (f a).Ensures e s' (fun _ ↦ I) E) (hs : I s) :
    (as.forM f).Ensures e s (fun _ ↦ I) E := by
  induction as generalizing s with
  | nil => exact ensures_pure.2 hs
  | cons a as ih =>
    show (f a >>= fun _ ↦ as.forM f).Ensures e s (fun _ ↦ I) E
    exact (h a (by simp) s hs).bind fun _ s' hs' ↦ ih (fun b hb ↦ h b (by simp [hb])) hs'

/-- An action that is mapped over a list, with an invariant; the values are determined by the
elements. -/
theorem ensures_mapM {as : List β} {f : β → Act σ α} {r : β → α} {I : σ → Prop}
    (h : ∀ a ∈ as, ∀ s', I s' → (f a).Ensures e s' (fun b s'' ↦ b = r a ∧ I s'') E) (hs : I s) :
    (as.mapM f).Ensures e s (fun bs s' ↦ bs = as.map r ∧ I s') E := by
  induction as generalizing s with
  | nil => exact ensures_pure.2 ⟨rfl, hs⟩
  | cons a as ih =>
    rw [List.mapM_cons]
    refine (h a (by simp) s hs).bind ?_
    rintro b s' ⟨rfl, hs'⟩
    refine (ih (fun b hb ↦ h b (by simp [hb])) hs').bind ?_
    rintro bs s'' ⟨rfl, hs''⟩
    exact ensures_pure.2 ⟨rfl, hs''⟩

/-! ### Actions on parts -/

/-- Acting on a part ensures of the whole what it ensures of the part in its place. The same holds
for the other ways to act on parts. -/
@[simp]
theorem ensures_on {part : σ → τ} {put : σ → τ → σ} {x : Act τ α} :
    (on part put x).Ensures e s Q E ↔
      x.Ensures e (part s) (fun a t ↦ Q a (put s t)) fun t ↦ E (put s t) :=
  forall_congr' fun _ ↦ Outcome.meets_mapState

@[simp]
theorem ensures_into {wrap : τ → σ} {t : τ} {x : Act τ α} :
    (into wrap t x).Ensures e s Q E ↔
      x.Ensures e t (fun a t ↦ Q a (wrap t)) fun t ↦ E (wrap t) :=
  forall_congr' fun _ ↦ Outcome.meets_mapState

@[simp]
theorem ensures_lift {x : Act Unit α} :
    (lift x).Ensures e s Q E ↔ x.Ensures e () (fun a _ ↦ Q a s) fun _ ↦ E s :=
  forall_congr' fun _ ↦ Outcome.meets_mapState

@[simp]
theorem ensures_first {t : τ} {x : Act σ α} {Q : α → σ × τ → Prop} {E : σ × τ → Prop} :
    (first x).Ensures e (s, t) Q E ↔
      x.Ensures e s (fun a s' ↦ Q a (s', t)) fun s' ↦ E (s', t) :=
  ensures_on

@[simp]
theorem ensures_second {t : τ} {x : Act τ α} {Q : α → σ × τ → Prop} {E : σ × τ → Prop} :
    (second x).Ensures e (s, t) Q E ↔
      x.Ensures e t (fun a t' ↦ Q a (s, t')) fun t' ↦ E (s, t') :=
  ensures_on

/-- Sequencing after an action on the first part. -/
theorem Ensures.first_bind {t : τ} {x : Act σ α} {f : α → Act (σ × τ) β} {R : β → σ × τ → Prop}
    {E : σ × τ → Prop} (h : x.Ensures e s Q fun s' ↦ E (s', t))
    (hf : ∀ a s', Q a s' → (f a).Ensures e (s', t) R E) :
    (first x >>= f).Ensures e (s, t) R E := by
  have hx : (first x).Ensures e (s, t) (fun a p ↦ Q a p.1 ∧ p.2 = t) E :=
    ensures_first.2 (h.weaken fun _ _ hQ ↦ ⟨hQ, rfl⟩)
  refine hx.bind ?_
  rintro a ⟨s', _⟩ ⟨hQ, rfl⟩
  exact hf a s' hQ

/-- Sequencing after an action on the second part. -/
theorem Ensures.second_bind {t : τ} {x : Act τ α} {f : α → Act (σ × τ) β} {P : α → τ → Prop}
    {R : β → σ × τ → Prop} {E : σ × τ → Prop} (h : x.Ensures e t P fun t' ↦ E (s, t'))
    (hf : ∀ a t', P a t' → (f a).Ensures e (s, t') R E) :
    (second x >>= f).Ensures e (s, t) R E := by
  have hx : (second x).Ensures e (s, t) (fun a p ↦ P a p.2 ∧ p.1 = s) E :=
    ensures_second.2 (h.weaken fun _ _ hP ↦ ⟨hP, rfl⟩)
  refine hx.bind ?_
  rintro a ⟨_, t'⟩ ⟨hP, rfl⟩
  exact hf a t' hP

/-- The action cannot fail and leaves no call without an answer, at whatever state. -/
def IsQuiet (e : Engine) (x : Act τ Unit) : Prop :=
  ∀ t, x.Ensures e t (fun _ _ ↦ True) fun _ ↦ False

/-- A quiet action does not end otherwise, so anything may be said of that case. -/
theorem IsQuiet.ensures {x : Act τ Unit} {E : τ → Prop} (h : x.IsQuiet e) (t : τ) :
    x.Ensures e t (fun _ _ ↦ True) E :=
  (h t).weakenFault fun _ ↦ False.elim

/-- After a quiet action as many calls are not answered as before. -/
theorem IsQuiet.unanswered_eq {x : Act τ Unit} (h : x.IsQuiet e) (t : τ) (j : Journal) :
    (x.run e t j).journal.unanswered = j.unanswered := by
  have hj := h t j
  rcases hrun : x.run e t j with ⟨fault | a, t', j'⟩ <;> rw [hrun] at hj
  · exact hj.2.2.1.elim
  · exact hj.2

/-- An action beside a state that is released afterwards, whatever happens. -/
theorem ensures_bracketBeside {acquire : Act Unit τ} {release : Act τ Unit} {x : Act (τ × σ) α}
    {A : τ → Prop} (hrelease : release.IsQuiet e)
    (hacquire : acquire.Ensures e () (fun t _ ↦ A t) fun _ ↦ E s)
    (h : ∀ t, A t → x.Ensures e (t, s) (fun a p ↦ Q a p.2) fun p ↦ E p.2) :
    (bracketBeside acquire release x).Ensures e s Q E := by
  intro j
  have hj := hacquire j
  rcases hrun : acquire.run e () j with ⟨fault | t, u, j'⟩ <;> rw [hrun] at hj
  · simp only [bracketBeside, hrun]
    exact hj
  · have hx := h t hj.1 j'
    simp only [bracketBeside, hrun]
    have hquiet := hrelease.unanswered_eq (x.run e (t, s) j').state.1 (x.run e (t, s) j').journal
    exact Outcome.meets_mapState.2 ((hx.since hj.2).until hquiet)

/-- An action on a state of its own that is released afterwards, whatever happens. -/
theorem ensures_bracket {acquire : Act Unit τ} {release : Act τ Unit} {x : Act τ α}
    {A : τ → Prop} (hrelease : release.IsQuiet e)
    (hacquire : acquire.Ensures e () (fun t _ ↦ A t) fun _ ↦ E s)
    (h : ∀ t, A t → x.Ensures e t (fun a _ ↦ Q a s) fun _ ↦ E s) :
    (bracket acquire release x).Ensures e s Q E :=
  ensures_bracketBeside hrelease hacquire fun t ht ↦ ensures_first.2 (h t ht)

/-- An action on a state of its own, which is handed over with the value. -/
theorem ensures_handOver {acquire : Act Unit τ} {release : Act τ Unit} {x : Act τ α}
    {A : τ → Prop} {Q : α × τ → σ → Prop} (hrelease : release.IsQuiet e)
    (hacquire : acquire.Ensures e () (fun t _ ↦ A t) fun _ ↦ E s)
    (h : ∀ t, A t → x.Ensures e t (fun a t' ↦ Q (a, t') s) fun _ ↦ E s) :
    (handOver acquire release x).Ensures e s Q E := by
  intro j
  have hj := hacquire j
  rcases hrun : acquire.run e () j with ⟨fault | t, u, j'⟩ <;> rw [hrun] at hj
  · simp only [handOver, hrun]
    exact hj
  · have hx := (h t hj.1 j').since hj.2
    simp only [handOver, hrun]
    rcases hrunx : x.run e t j' with ⟨fault | a, t', j''⟩ <;> rw [hrunx] at hx
    · exact ⟨hx.1, hx.2.1, hx.2.2.1, hrelease.unanswered_eq t' j'' ▸ hx.2.2.2⟩
    · exact hx

/-- A value that is threaded through nothing. -/
theorem ensures_through_nil {x : α → Act (σ × τ) α} {a : α} {Q : α → σ × List τ → Prop}
    {E : σ × List τ → Prop} (h : Q a (s, [])) : (through x a).Ensures e (s, []) Q E :=
  fun _ ↦ ⟨h, rfl⟩

/-- A value that is threaded through a list: first through its head, then through the rest. -/
theorem ensures_through_cons {x : α → Act (σ × τ) α} {a : α} {t : τ} {ts : List τ}
    {Q : α → σ × List τ → Prop} {E : σ × List τ → Prop} {R : α → σ × τ → Prop}
    (hx : (x a).Ensures e (s, t) R fun p ↦ E (p.1, p.2 :: ts))
    (h : ∀ b p, R b p → (through x b).Ensures e (p.1, ts) (fun c q ↦ Q c (q.1, p.2 :: q.2))
      fun q ↦ E (q.1, p.2 :: q.2)) :
    (through x a).Ensures e (s, t :: ts) Q E := by
  intro j
  have hj := hx j
  show (through.go x e a s (t :: ts) j).Meets e j Q E
  rw [through.go]
  rcases hrun : (x a).run e (s, t) j with ⟨fault | b, ⟨s', t'⟩, j'⟩ <;> rw [hrun] at hj
  · exact hj
  · exact Outcome.meets_mapState.2 ((h b (s', t') hj.1 j').since hj.2)

/-- A value that is threaded through a list, with an invariant of the value and the shared state and
one of the elements. -/
theorem ensures_through {x : α → Act (σ × τ) α} {a : α} {ts : List τ} {I : α → σ → Prop}
    {J : τ → Prop} (h : ∀ a s t, I a s → J t → (x a).Ensures e (s, t) (fun b p ↦ I b p.1 ∧ J p.2)
      fun p ↦ E p.1 ∧ J p.2) (hs : I a s) (hts : ∀ t ∈ ts, J t) :
    (through x a).Ensures e (s, ts) (fun b p ↦ I b p.1 ∧ ∀ t ∈ p.2, J t)
      fun p ↦ E p.1 ∧ ∀ t ∈ p.2, J t := by
  induction ts generalizing a s with
  | nil => exact ensures_through_nil ⟨hs, by simp⟩
  | cons t ts ih =>
    obtain ⟨ht, hts⟩ := List.forall_mem_cons.1 hts
    refine ensures_through_cons ((h a s t hs ht).weakenFault fun p hp ↦
      ⟨hp.1, List.forall_mem_cons.2 ⟨hp.2, hts⟩⟩) fun b p hp ↦ ?_
    refine (ih hp.1 hts).mono ?_ ?_
    · exact fun c q hq ↦ ⟨hq.1, List.forall_mem_cons.2 ⟨hp.2, hq.2⟩⟩
    · exact fun q hq ↦ ⟨hq.1, List.forall_mem_cons.2 ⟨hp.2, hq.2⟩⟩

end

end Act

end Dialectical
