import Qualify.Constraint.Basic
import Qualify.Fault
import Qualify.Slot.Registry

namespace Qualify

-- What can only go wrong when a constraint or a solution does not fit the slots. A fault is not
-- reported like the others: it ends the call without an answer.
inductive Inconsistency where
  | constantConstant (constraint : Constraint)
  | fault (cause : Fault)
  | foreignQualifier (id : SlotId) (q : Qualifier)
  | implicationArity (constraint : Constraint) (expected found : Nat)
  | nestedSoft (constraint : Constraint)
  | nonVariableResult (constraint : Constraint) (result : SlotId)
  | slot (error : SlotError)
  | solutionViolation (constraint : Constraint)
  | triviallyFalse (constraint : Constraint)
  | undecodedSlot (id : SlotId)
deriving Repr

def Inconsistency.message : Inconsistency → String
  | constantConstant c => s!"constraint `{c.text}' between two constants reached the encoder"
  | fault cause => cause.text
  | foreignQualifier id q =>
      s!"slot {id.text} is assigned qualifier index {q}, which is not part of the lattice"
  | implicationArity c expected found =>
      s!"distributing implication `{c.text}' produced {found} clauses, expected {expected}"
  | nestedSoft c => s!"soft constraint `{c.text}' is nested inside a compound constraint"
  | nonVariableResult c result => s!"result slot {result.text} of constraint `{c.text}' is not a variable"
  | slot error => error.message
  | solutionViolation c => s!"solution violates constraint `{c.text}'"
  | triviallyFalse c => s!"constraint `{c.text}' simplified to false"
  | undecodedSlot id => s!"slot {id.text} was not decoded to exactly one qualifier"

end Qualify
