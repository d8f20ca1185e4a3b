import Dialectical.Sat.Clause

/-!
# Encodings as values

An encoding is what it asks of a solver: a list of clauses to add and of variables to make room
for, in order. Which variables are fresh depends on how many the solver knows, so an encoding is a
function of that number and nothing else; it is written down before any solver sees it, and its
clauses can be spoken of without one.

* `Emit` is an encoding that always succeeds.
* `Encoder` is one that may stop with a fault; what it asked for before the fault still counts.
-/

namespace Dialectical

/-- A request to a solver. -/
inductive Directive where
  | clause (c : Clause)
  /-- Make room for this many variables. -/
  | reserve (n : Nat)
  deriving DecidableEq, Repr

namespace Directive

/-- The number of variables that are known after a request, if `n` were known before. -/
def known (n : Nat) : Directive → Nat
  | clause c => max n (Clause.span c)
  | reserve m => max n m

/-- The clauses in a list of requests. -/
def clauses (ds : List Directive) : List Clause :=
  ds.filterMap fun
    | clause c => some c
    | reserve _ => none

end Directive

/-- A result, the number of known variables afterwards, and the requests made on the way. -/
structure Emission (α : Type) where
  result : α
  known : Nat
  directives : List Directive

/-- A computation that makes requests to a solver, given the number of variables it knows. -/
structure Emit (α : Type) where
  /-- Runs the computation. -/
  run : Nat → Emission α

namespace Emit

variable {α β : Type}

@[ext]
theorem ext {x y : Emit α} (h : ∀ n, x.run n = y.run n) : x = y := by
  cases x
  cases y
  congr
  funext n
  exact h n

instance : Monad Emit where
  pure a := ⟨fun n ↦ ⟨a, n, []⟩⟩
  bind x f := ⟨fun n ↦
    let o := x.run n
    let o' := (f o.result).run o.known
    ⟨o'.result, o'.known, o.directives ++ o'.directives⟩⟩

@[simp]
theorem run_pure (a : α) (n : Nat) : (pure a : Emit α).run n = ⟨a, n, []⟩ := rfl

@[simp]
theorem run_bind (x : Emit α) (f : α → Emit β) (n : Nat) :
    (x >>= f).run n =
      ⟨((f (x.run n).result).run (x.run n).known).result,
        ((f (x.run n).result).run (x.run n).known).known,
        (x.run n).directives ++ ((f (x.run n).result).run (x.run n).known).directives⟩ := rfl

instance : LawfulMonad Emit := LawfulMonad.mk' _
  (fun x ↦ by
    ext n : 1
    change (⟨_, _, _ ++ []⟩ : Emission _) = _
    rw [List.append_nil]
    rfl)
  (fun _ _ ↦ rfl)
  (fun x f g ↦ by
    ext n : 1
    simp)

/-- Makes one request. -/
def direct (d : Directive) : Emit Unit := ⟨fun n ↦ ⟨(), d.known n, [d]⟩⟩

/-- Asks for a clause. -/
def clause (c : Clause) : Emit Unit := direct (.clause c)

/-- Asks for some clauses, in order. -/
def clauses : List Clause → Emit Unit
  | [] => pure ()
  | c :: cs => do clause c; clauses cs

/-- Takes the first unknown variable, and makes room for it. -/
def fresh : Emit Variable := ⟨fun n ↦ ⟨n, n + 1, [.reserve (n + 1)]⟩⟩

@[simp]
theorem run_clause (c : Clause) (n : Nat) :
    (clause c).run n = ⟨(), max n (Clause.span c), [.clause c]⟩ := rfl

@[simp]
theorem run_fresh (n : Nat) : fresh.run n = ⟨n, n + 1, [.reserve (n + 1)]⟩ := rfl

end Emit

/-- A computation that makes requests to a solver and may end with a fault. -/
abbrev Encoder := ExceptT Fault Emit

namespace Encoder

variable {α : Type}

/-- The outcome of an encoder, given the number of known variables. -/
def emission (x : Encoder α) (n : Nat) : Emission (Except Fault α) := Emit.run x n

/-- Asks for a clause. -/
def clause (c : Clause) : Encoder Unit := ExceptT.lift (Emit.clause c)

/-- Asks for some clauses, in order. -/
def clauses (cs : List Clause) : Encoder Unit := ExceptT.lift (Emit.clauses cs)

/-- The value of a pure computation, or its fault. -/
def ofExcept (x : Except Fault α) : Encoder α := ExceptT.mk (pure x)

end Encoder

end Dialectical
