import Dialectical.Error

/-!
# Three-valued interpretations

An interpretation gives each argument one of three statuses: satisfied, unsatisfied or undecided.
Interpretations of the same size are ordered by information: `I` extends `J` if `I` agrees with `J`
on every argument that `J` decides.
-/

namespace Dialectical

/-- The status of an argument. -/
inductive Status where
  | satisfied
  | unsatisfied
  | undecided
  deriving DecidableEq, Repr

/-- The decided status with a truth value. -/
def Status.ofBool : Bool → Status
  | true => satisfied
  | false => unsatisfied

/-- The truth value of a decided status. -/
def Status.value? : Status → Option Bool
  | satisfied => some true
  | unsatisfied => some false
  | undecided => none

/-- A status for each argument, in order of identifiers. -/
@[ext]
structure Interpretation where
  /-- The statuses in order of identifiers. -/
  statuses : List Status
  deriving DecidableEq, Repr

namespace Interpretation

/-- The interpretation of `n` arguments that decides none of them. -/
def blank (n : Nat) : Interpretation := ⟨List.replicate n .undecided⟩

/-- All interpretations of `n` arguments. Each argument goes through unsatisfied, satisfied and
undecided, and the last argument varies fastest. -/
def allOfSize (n : Nat) : List Interpretation :=
  (lists n).map Interpretation.mk
where
  /-- All lists of `n` statuses. -/
  lists : Nat → List (List Status)
    | 0 => [[]]
    | n + 1 => [.unsatisfied, .satisfied, .undecided].flatMap fun s ↦ (lists n).map (s :: ·)

/-- The number of arguments. -/
def size (I : Interpretation) : Nat := I.statuses.length

/-- The status of an argument, if the argument is one of the interpretation. -/
def status? (I : Interpretation) (a : Nat) : Option Status := I.statuses[a]?

/-- The status of an argument; it is a fault to ask for an argument out of range. -/
def status (I : Interpretation) (a : Nat) : Except Fault Status := Fault.lookup I.statuses a

/-- The interpretation in which one argument gets a status and the others keep theirs. An argument
out of range changes nothing. -/
def set (I : Interpretation) (a : Nat) (s : Status) : Interpretation := ⟨I.statuses.set a s⟩

/-- As `set`, and it is a fault to set an argument out of range. -/
def assign (I : Interpretation) (a : Nat) (s : Status) : Except Fault Interpretation :=
  if a < I.size then .ok (I.set a s) else .error (.outOfBounds I.size a)

/-- The arguments with their statuses. -/
def entries (I : Interpretation) : List (Nat × Status) :=
  I.statuses.zipIdx.map fun p ↦ (p.2, p.1)

/-- The arguments with a given status, in increasing order. -/
def argumentsWith (I : Interpretation) (s : Status) : List Nat :=
  (List.range I.size).filter fun a ↦ I.status? a = some s

/-- The undecided arguments, in increasing order. -/
def undecided (I : Interpretation) : List Nat := I.argumentsWith .undecided

/-- The decided arguments with their truth values, in increasing order. -/
def decided (I : Interpretation) : List (Nat × Bool) :=
  I.entries.filterMap fun p ↦ p.2.value?.map (p.1, ·)

/-- The number of decided arguments. -/
def countDecided (I : Interpretation) : Nat := I.statuses.countP (· ≠ .undecided)

/-- Whether every argument is decided. -/
def isTwoValued (I : Interpretation) : Bool := I.statuses.all (· ≠ .undecided)

/-- Whether an argument is satisfied. -/
def isSatisfied (I : Interpretation) (a : Nat) : Bool := I.status? a = some .satisfied

/-- Whether an argument is unsatisfied. -/
def isUnsatisfied (I : Interpretation) (a : Nat) : Bool := I.status? a = some .unsatisfied

/-- Whether `I` agrees with `J` wherever `J` is decided. Arguments that only one of the two has are
not compared. -/
def extends? (I J : Interpretation) : Bool :=
  (I.statuses.zip J.statuses).all fun p ↦ p.2 = .undecided || p.1 = p.2

/-- The interpretation that keeps the unsatisfied arguments and decides no other. -/
def onlyUnsatisfied (I : Interpretation) : Interpretation :=
  ⟨I.statuses.map fun s ↦ if s = .unsatisfied then .unsatisfied else .undecided⟩

end Interpretation

end Dialectical
