import Qualify.Constraint.Inconsistency

namespace Qualify

-- An operand as the encodings see it.
inductive Operand where
  | constant (q : Qualifier)
  | slot (id : SlotId)
deriving DecidableEq, Repr

-- The operands of a relation, of which at least one is a variable.
inductive RelationRoute where
  | constantVariable (q : Qualifier) (id : SlotId)
  | variableConstant (id : SlotId) (q : Qualifier)
  | variableVariable (first second : SlotId)
deriving DecidableEq, Repr

namespace Registry

def operand (registry : Registry) (id : SlotId) : Except Inconsistency Operand := do
  let slot ← (registry.slot id).mapError .slot
  match slot.constant? with
  | some q => return .constant q
  | none => return .slot id

def relationRoute (registry : Registry) (kind : Relation) (first second : SlotId)
    (location : Location) : Except Inconsistency RelationRoute := do
  let a ← registry.operand first
  let b ← registry.operand second
  match a, b with
  | .constant p, .slot w => return .constantVariable p w
  | .slot v, .constant q => return .variableConstant v q
  | .slot v, .slot w => return .variableVariable v w
  | .constant _, .constant _ => .error (.constantConstant (.relation kind first second location))

-- The operands of a function. Its result has to be a variable, which is checked first.
def functionRoute (registry : Registry) (table : TableFunction) (left right result : SlotId)
    (location : Location) : Except Inconsistency (Operand × Operand) := do
  match ← registry.operand result with
  | .constant _ => .error (.nonVariableResult (.function table left right result location) result)
  | .slot _ =>
      let a ← registry.operand left
      let b ← registry.operand right
      return (a, b)

end Registry

end Qualify
