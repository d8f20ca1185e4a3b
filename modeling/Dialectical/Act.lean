import Dialectical.Journal

/-!
# Actions

An `Act σ α` is a computation with an engine to ask, a state of type `σ` to keep and a journal to
write. It ends with a value or a fault, **and in both cases with a state and a journal**: what was
done before a fault stays done. That is what distinguishes it from a state transformer over
`Except`, and it is why components can be used again after a solver gave up.

Components are records, so an action on a part is lifted to the whole by `Act.on`; the parts that a
computation needs for itself only, and must release whatever happens, are handled by
`Act.bracket`.

## Main statements

* `Act.run_pure`, `Act.run_bind`: how actions are sequenced.
* `LawfulMonad (Act σ)`.
-/

namespace Dialectical

/-- How an action ended. -/
structure Outcome (σ α : Type) where
  /-- The value, or the fault. -/
  result : Except Fault α
  /-- The state after the action. -/
  state : σ
  /-- The journal after the action. -/
  journal : Journal

/-- The same outcome with the state seen as a part of something else. -/
def Outcome.mapState {σ τ α : Type} (f : σ → τ) (o : Outcome σ α) : Outcome τ α :=
  ⟨o.result, f o.state, o.journal⟩

/-- A computation with an engine, a state and a journal. -/
structure Act (σ α : Type) where
  /-- Runs the action. -/
  run : Engine → σ → Journal → Outcome σ α

namespace Act

variable {σ τ α β : Type}

@[ext]
theorem ext {x y : Act σ α} (h : ∀ e s j, x.run e s j = y.run e s j) : x = y := by
  cases x
  cases y
  congr
  funext e s j
  exact h e s j

/-! ### Sequencing -/

instance : Monad (Act σ) where
  pure a := ⟨fun _ s j ↦ ⟨.ok a, s, j⟩⟩
  bind x f := ⟨fun e s j ↦
    match x.run e s j with
    | ⟨.ok a, s, j⟩ => (f a).run e s j
    | ⟨.error fault, s, j⟩ => ⟨.error fault, s, j⟩⟩

@[simp]
theorem run_pure (a : α) (e : Engine) (s : σ) (j : Journal) :
    (pure a : Act σ α).run e s j = ⟨.ok a, s, j⟩ := rfl

@[simp]
theorem run_bind (x : Act σ α) (f : α → Act σ β) (e : Engine) (s : σ) (j : Journal) :
    (x >>= f).run e s j =
      match x.run e s j with
      | ⟨.ok a, s, j⟩ => (f a).run e s j
      | ⟨.error fault, s, j⟩ => ⟨.error fault, s, j⟩ := rfl

instance : LawfulMonad (Act σ) := LawfulMonad.mk' _
  (fun x ↦ by
    ext e s j : 1
    change (match x.run e s j with | ⟨.ok a, s, j⟩ => _ | ⟨.error fault, s, j⟩ => _) = _
    rcases x.run e s j with ⟨_ | _, _, _⟩ <;> rfl)
  (fun _ _ ↦ rfl)
  (fun x f g ↦ by
    ext e s j : 1
    simp only [run_bind]
    rcases x.run e s j with ⟨_ | _, _, _⟩ <;> rfl)

/-! ### Basic actions -/

/-- The state. -/
def get : Act σ σ := ⟨fun _ s j ↦ ⟨.ok s, s, j⟩⟩

/-- Changes the state. -/
def modify (f : σ → σ) : Act σ Unit := ⟨fun _ s j ↦ ⟨.ok (), f s, j⟩⟩

/-- Ends with a fault. -/
def throw (fault : Fault) : Act σ α := ⟨fun _ s j ↦ ⟨.error fault, s, j⟩⟩

/-- The value of a pure computation, or its fault. -/
def ofExcept (x : Except Fault α) : Act σ α := ⟨fun _ s j ↦ ⟨x, s, j⟩⟩

/-- Changes the journal. -/
def record (f : Journal → Journal) : Act σ Unit := ⟨fun _ s j ↦ ⟨.ok (), s, f j⟩⟩

/-- Writes a log record. -/
def log (level : Level) (component : Component) (message : String) : Act σ Unit :=
  record (·.write ⟨level, component, message⟩)

@[simp]
theorem run_get (e : Engine) (s : σ) (j : Journal) : (get : Act σ σ).run e s j = ⟨.ok s, s, j⟩ :=
  rfl

@[simp]
theorem run_modify (f : σ → σ) (e : Engine) (s : σ) (j : Journal) :
    (modify f).run e s j = ⟨.ok (), f s, j⟩ := rfl

@[simp]
theorem run_throw (fault : Fault) (e : Engine) (s : σ) (j : Journal) :
    (throw fault : Act σ α).run e s j = ⟨.error fault, s, j⟩ := rfl

@[simp]
theorem run_ofExcept (x : Except Fault α) (e : Engine) (s : σ) (j : Journal) :
    (ofExcept x : Act σ α).run e s j = ⟨x, s, j⟩ := rfl

@[simp]
theorem run_record (f : Journal → Journal) (e : Engine) (s : σ) (j : Journal) :
    (record f : Act σ Unit).run e s j = ⟨.ok (), s, f j⟩ := rfl

@[simp]
theorem run_log (level : Level) (component : Component) (message : String) (e : Engine) (s : σ)
    (j : Journal) :
    (log level component message : Act σ Unit).run e s j =
      ⟨.ok (), s, j.write ⟨level, component, message⟩⟩ := rfl

/-! ### Actions on parts -/

/-- An action on a part of the state. -/
def on (part : σ → τ) (put : σ → τ → σ) (x : Act τ α) : Act σ α :=
  ⟨fun e s j ↦ (x.run e (part s) j).mapState (put s)⟩

/-- An action on a given state, which becomes the state of the whole. It serves to act on the one
alternative that a state turned out to be. -/
def into (wrap : τ → σ) (t : τ) (x : Act τ α) : Act σ α :=
  ⟨fun e _ j ↦ (x.run e t j).mapState wrap⟩

/-- An action that needs no state. -/
def lift (x : Act Unit α) : Act σ α :=
  ⟨fun e s j ↦ (x.run e () j).mapState fun _ ↦ s⟩

/-- Acquires a state of its own, acts on it beside the state that is there already, and releases it,
**also after a fault**. The outcome is that of the action; a fault of the release is not possible in
this library and is not looked at. -/
def bracketBeside (acquire : Act Unit τ) (release : Act τ Unit) (x : Act (τ × σ) α) : Act σ α :=
  ⟨fun e s j ↦
    match acquire.run e () j with
    | ⟨.error fault, _, j⟩ => ⟨.error fault, s, j⟩
    | ⟨.ok t, _, j⟩ =>
      let o := x.run e (t, s) j
      ⟨o.result, o.state.2, (release.run e o.state.1 o.journal).journal⟩⟩

/-- Acts on the first of two states. -/
def first (x : Act σ α) : Act (σ × τ) α := on Prod.fst (fun p s ↦ (s, p.2)) x

/-- Acts on the second of two states. -/
def second (x : Act τ α) : Act (σ × τ) α := on Prod.snd (fun p t ↦ (p.1, t)) x

/-- Acquires a state of its own, acts on it and releases it, also after a fault. -/
def bracket (acquire : Act Unit τ) (release : Act τ Unit) (x : Act τ α) : Act σ α :=
  bracketBeside acquire release (first x)

/-- Acquires a state, acts on it and hands it over with the value. If the action ends with a fault
the state is released. -/
def handOver (acquire : Act Unit τ) (release : Act τ Unit) (x : Act τ α) : Act σ (α × τ) :=
  ⟨fun e s j ↦
    match acquire.run e () j with
    | ⟨.error fault, _, j⟩ => ⟨.error fault, s, j⟩
    | ⟨.ok t, _, j⟩ =>
      match x.run e t j with
      | ⟨.ok a, t, j⟩ => ⟨.ok (a, t), s, j⟩
      | ⟨.error fault, t, j⟩ => ⟨.error fault, s, (release.run e t j).journal⟩⟩

/-- Threads a value through the elements of a list. Each element is acted on in turn, beside a
state that all of them share; after a fault the elements that were reached keep their changes. -/
def through (x : α → Act (σ × τ) α) (a : α) : Act (σ × List τ) α :=
  ⟨fun e s j ↦ go e a s.1 s.2 j⟩
where
  /-- As `through`, with the shared state and the elements apart. -/
  go (e : Engine) (a : α) (s : σ) : List τ → Journal → Outcome (σ × List τ) α
    | [], j => ⟨.ok a, (s, []), j⟩
    | t :: ts, j =>
      match (x a).run e (s, t) j with
      | ⟨.error fault, (s, t), j⟩ => ⟨.error fault, (s, t :: ts), j⟩
      | ⟨.ok a, (s, t), j⟩ => (go e a s ts j).mapState fun p ↦ (p.1, t :: p.2)

end Act

end Dialectical
