import Dialectical.Sat.Session

/-!
# Components that open on first use

Several components keep a session from their first use until they are closed, and cannot be used
afterwards. `Lifecycle τ` is the state of such a component while what it keeps is of type `τ`.
-/

namespace Dialectical

/-- Where a component stands. -/
inductive Lifecycle (τ : Type) where
  /-- Nothing was asked of it yet. -/
  | unopened
  /-- It is in use, and keeps this. -/
  | opened (kept : τ)
  /-- It must not be used any more. -/
  | closed

namespace Lifecycle

variable {τ α : Type}

/-- Acts on what a component keeps. An unopened component is opened first; it is a fault to use a
closed one. -/
def use (start : Act Unit τ) (fault : Fault) (x : Act τ α) : Act (Lifecycle τ) α := do
  match ← Act.get with
  | .closed => Act.throw fault
  | .opened kept => Act.into .opened kept x
  | .unopened =>
    let kept ← Act.lift start
    Act.into .opened kept x

/-- Closes a component, and releases what it keeps. Closing it twice has no effect. -/
def close (release : Act τ Unit) : Act (Lifecycle τ) Unit := do
  match ← Act.get with
  | .opened kept => Act.into .opened kept release
  | .unopened => pure ()
  | .closed => pure ()
  Act.modify fun _ ↦ .closed

end Lifecycle

/-- A session in which the acceptance conditions of arguments have names. -/
structure NamedSession where
  session : Session
  /-- The names of the acceptance conditions, in order of arguments; none if none were needed. -/
  names : List Literal

namespace NamedSession

/-- Acts on the session. -/
def onSession {α : Type} (x : Act Session α) : Act NamedSession α :=
  Act.on NamedSession.session (fun s t ↦ { s with session := t }) x

/-- The name of the acceptance condition of an argument. -/
def nameOf (a : Nat) : Act NamedSession Literal := do
  Act.ofExcept (Fault.lookup (← Act.get).names a)

/-- Whether the clauses are satisfiable with some literals assumed. -/
def satisfiableWith (ls : List Literal) : Act NamedSession Bool :=
  onSession do
    Session.assume ls
    Session.satisfiable

/-- Releases the session. -/
def release : Act NamedSession Unit := onSession Session.release

/-- Opens a session with room for `n` variables, and keeps the names that an action on it gives.
If the action ends with a fault the session is released. -/
def acquire (n : Nat) (x : Act Session (List Literal)) : Act Unit NamedSession := do
  let (names, session) ← Act.handOver (Session.acquire n) Session.release x
  return ⟨session, names⟩

end NamedSession

end Dialectical
