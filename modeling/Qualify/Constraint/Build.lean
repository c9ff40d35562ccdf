import Qualify.Constraint.Basic
import Qualify.Slot.Registry

namespace Qualify

inductive ConstraintError where
  | goalNotConstant (goal : SlotId)
  | nestedPreference (compound : String)
  | slot (error : SlotError)
  | unsatisfiable (constraint : String) (location : Location)
deriving DecidableEq, Repr

def ConstraintError.message : ConstraintError → String
  | goalNotConstant goal => s!"preference goal {goal.text} is not a constant slot"
  | nestedPreference compound => s!"preference constraints cannot be nested inside {compound} constraints"
  | slot error => error.message
  | unsatisfiable constraint location =>
      s!"constraint `{constraint}' at `{location.text}' can never be satisfied"

namespace Constraint

def slotOf (registry : Registry) (id : SlotId) : Except ConstraintError Slot :=
  (registry.slot id).mapError .slot

def variableOf (registry : Registry) (id : SlotId) : Except ConstraintError Slot :=
  (registry.requireVariable id).mapError .slot

-- Whether a constant on either side already decides that the relation holds.
def holdsTrivially (lattice : Lattice) (kind : Relation) (first second : Option Qualifier) : Bool :=
  match kind with
  | .subtype =>
      (first.isSome && first == lattice.bottom?) || (second.isSome && second == lattice.top?)
  | .comparable => (first.or second).any fun q => (lattice.incomparable q).isEmpty
  | _ => false

-- A relation between two slots. What the constants among them decide is decided here.
def relate (registry : Registry) (kind : Relation) (first second : SlotId) (location : Location) :
    Except ConstraintError Constraint := do
  let a := (← slotOf registry first).constant?
  let b := (← slotOf registry second).constant?
  match a, b with
  | some p, some q => return ofBool (kind.holds registry.lattice p q)
  | _, _ =>
      if first = second then return ofBool (kind != .inequality)
      else if holdsTrivially registry.lattice kind a b then return alwaysTrue
      else return relation kind first second location

-- The result is a variable, unless the operands are constants too and everything is known.
def compute (registry : Registry) (table : TableFunction) (left right result : SlotId)
    (location : Location) : Except ConstraintError Constraint := do
  let a := (← slotOf registry left).constant?
  let b := (← slotOf registry right).constant?
  let r := (← slotOf registry result).constant?
  match a, b, r with
  | some a, some b, some r => return ofBool (table.apply registry.lattice a b == r)
  | _, _, some _ => .error (.slot (.notVariable result))
  | _, _, none => return function table left right result location

-- The same at the location of the result.
def computeAtResult (registry : Registry) (table : TableFunction) (left right result : SlotId) :
    Except ConstraintError Constraint := do
  let slot ← slotOf registry result
  compute registry table left right result slot.location

def prefer (registry : Registry) (subject goal : SlotId) (weight : Nat) :
    Except ConstraintError Constraint := do
  let slot ← variableOf registry subject
  match (← slotOf registry goal).constant? with
  | some q => return preference subject goal q weight slot.location
  | none => .error (.goalNotConstant goal)

def rejectSoft (compound : String) (parts : List Constraint) : Except ConstraintError Unit :=
  if parts.any isSoft then .error (.nestedPreference compound) else .ok ()

-- One branch or the other, by whether the potential slot is present.
def branch (registry : Registry) (potential : SlotId) (present absent : List Constraint) :
    Except ConstraintError Constraint := do
  let slot ← variableOf registry potential
  rejectSoft "existential" (present ++ absent)
  let present := present.filter fun c => !c.isAlwaysTrue
  let absent := absent.filter fun c => !c.isAlwaysTrue
  if present.isEmpty && absent.isEmpty then return alwaysTrue
  else return existential potential present absent slot.location

def imply (assumptions : List Constraint) (conclusion : Constraint) (location : Location) :
    Except ConstraintError Constraint := do
  rejectSoft "implication" (assumptions ++ [conclusion])
  let needed := assumptions.filter fun c => !c.isAlwaysTrue
  if assumptions.any isAlwaysFalse then return alwaysTrue
  else if needed.isEmpty then return conclusion
  else if conclusion.isAlwaysTrue then return alwaysTrue
  else return implication needed conclusion location

end Constraint

end Qualify
