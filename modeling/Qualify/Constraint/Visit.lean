import Qualify.Constraint.Route

namespace Qualify

-- What is met on the way through a constraint, outer parts first.
inductive Visit where
  | potential (id : SlotId)
  | part (constraint : Constraint)
deriving Repr

namespace Constraint

mutual

def visits : Constraint → List Visit
  | existential potential present absent _ =>
      .potential potential :: (visitsOfAll present ++ visitsOfAll absent)
  | implication assumptions conclusion _ => visitsOfAll assumptions ++ visits conclusion
  | c => [.part c]

def visitsOfAll : List Constraint → List Visit
  | [] => []
  | c :: rest => visits c ++ visitsOfAll rest

end

-- Whether a part without parts of its own can be encoded.
def isEncodable (registry : Registry) : Constraint → Bool
  | relation kind first second location =>
      (registry.relationRoute kind first second location).isOk
  | function table left right result location =>
      (registry.functionRoute table left right result location).isOk
  | preference .. => false
  | _ => true

end Constraint

def Visit.succeeds (registry : Registry) : Visit → Bool
  | potential _ => true
  | part c => c.isEncodable registry

def Visit.potential? : Visit → Option SlotId
  | potential id => some id
  | part _ => none

-- The potential slots of some constraints and their parts.
def Constraint.potentialsOfAll (constraints : List Constraint) : List SlotId :=
  (visitsOfAll constraints).filterMap Visit.potential?

-- The potential slots that are met before a part that cannot be encoded, or all of them if there
-- is no such part. These are the ones that use up variables.
def Constraint.usedPotentials (registry : Registry) (c : Constraint) : List SlotId :=
  (c.visits.takeWhile (Visit.succeeds registry)).filterMap Visit.potential?

end Qualify
