import Qualify.Constraint.Build
import Qualify.Constraint.Equality
import Qualify.Text.Tally

namespace Qualify

-- Constraints in the order in which they were first added, each of them once. `index` finds the
-- position of a constraint by any constraint that is the same.
structure ConstraintStore where
  constraints : Array Constraint
  index : List (Constraint × Nat)
deriving Repr

namespace ConstraintStore

def empty : ConstraintStore :=
  ⟨#[], []⟩

def position? (store : ConstraintStore) (c : Constraint) : Option Nat :=
  (store.index.find? fun entry => entry.1.same c).map (·.2)

-- A preference that is stored again with another weight takes the place of the old one.
def reweighted : Constraint → Constraint → Bool
  | .preference _ _ _ old _, .preference _ _ _ new _ => old != new
  | _, _ => false

-- Says whether the constraint was new.
def add (store : ConstraintStore) (c : Constraint) : Except ConstraintError Bool × ConstraintStore :=
  if c.isAlwaysTrue then (.ok false, store)
  else if c.isAlwaysFalse then (.error (.unsatisfiable c.text .missing), store)
  else match store.position? c with
    | none =>
        (.ok true, ⟨store.constraints.push c, (c, store.constraints.size) :: store.index⟩)
    | some position =>
        if (store.constraints[position]?).any (reweighted · c) then
          (.ok false, { store with constraints := store.constraints.setIfInBounds position c })
        else (.ok false, store)

-- The message for a relation that never holds describes the slots themselves.
def impossible (registry : Registry) (kind : Relation) (first second : SlotId) (location : Location) :
    Except ConstraintError Bool := do
  let a ← Constraint.slotOf registry first
  let b ← Constraint.slotOf registry second
  let text := s!"{a.describe registry.lattice} {kind.name} {b.describe registry.lattice}"
  .error (.unsatisfiable text location)

def addRelation (store : ConstraintStore) (registry : Registry) (kind : Relation)
    (first second : SlotId) (location : Location) : Except ConstraintError Bool × ConstraintStore :=
  match Constraint.relate registry kind first second location with
  | .error e => (.error e, store)
  | .ok c =>
      if c.isAlwaysFalse then (impossible registry kind first second location, store)
      else store.add c

def countByKind (store : ConstraintStore) : List (String × Nat) :=
  Text.tally (store.constraints.toList.map (·.kindName))

end ConstraintStore

end Qualify
