import Qualify.Constraint.Inconsistency
import Qualify.Solution.Basic

namespace Qualify

namespace Solution

variable (solution : Solution) (registry : Registry)

-- The qualifier of a slot: its own if it is a constant, and otherwise the one of the solution.
def value (id : SlotId) : Except Inconsistency Qualifier := do
  let slot ← (registry.slot id).mapError .slot
  match slot.constant? with
  | some q => return q
  | none =>
      match solution.get? id with
      | some q => if registry.lattice.contains q then return q else .error (.foreignQualifier id q)
      | none => .error (.undecodedSlot id)

mutual

-- Whether a constraint holds. One branch of an existential constraint is enough, and a preference
-- never fails. Parts that cannot change the answer any more are not looked at.
def holds : Constraint → Except Inconsistency Bool
  | .alwaysTrue => .ok true
  | .alwaysFalse => .ok false
  | .relation kind first second _ => do
      let a ← value solution registry first
      let b ← value solution registry second
      return kind.holds registry.lattice a b
  | .function table left right result _ => do
      let r ← value solution registry result
      let a ← value solution registry left
      let b ← value solution registry right
      return r == table.apply registry.lattice a b
  | .preference .. => .ok true
  | .existential _ present absent _ => do
      if ← holdsAll present then return true
      else holdsAll absent
  | .implication assumptions conclusion _ => do
      if ← holdsAll assumptions then holds conclusion
      else return true

def holdsAll : List Constraint → Except Inconsistency Bool
  | [] => .ok true
  | c :: rest => do
      if ← holds c then holdsAll rest
      else return false

end

def firstViolation : List Constraint → Except Inconsistency (Option Constraint)
  | [] => .ok none
  | c :: rest => do
      if ← holds solution registry c then firstViolation rest
      else return some c

-- What a preference costs that the solution does not meet.
def penalty (solution : Solution) : Constraint → Nat
  | .preference subject _ q weight _ => if solution.get? subject = some q then 0 else weight
  | _ => 0

def cost (solution : Solution) (constraints : List Constraint) : Nat :=
  constraints.foldr (fun c cost => solution.penalty c + cost) 0

end Solution

end Qualify
