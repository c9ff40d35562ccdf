import Qualify.Lattice.Basic
import Qualify.Slot.Id
import Qualify.Slot.Location

namespace Qualify

-- What a slot stands for, with the slots it is derived from.
inductive SlotKind where
  | sourceVariable (declaredType : Option String) (insertable : Bool)
  | constant (q : Qualifier)
  | refinement (refined : SlotId)
  | existential (potential alternative : SlotId)
  | combine (receiver declared : SlotId)
  | leastUpperBound (left right : SlotId)
  | arithmetic
  | polyInvoke
deriving DecidableEq, Repr

-- The kinds without their contents.
inductive SlotLabel where
  | sourceVariable
  | constant
  | refinement
  | existential
  | combine
  | leastUpperBound
  | arithmetic
  | polyInvoke
deriving DecidableEq, Repr

-- The name used in messages and statistics.
def SlotLabel.name : SlotLabel → String
  | sourceVariable => "source variable"
  | constant => "constant"
  | refinement => "refinement"
  | existential => "existential"
  | combine => "combine"
  | leastUpperBound => "least upper bound"
  | arithmetic => "arithmetic"
  | polyInvoke => "poly invoke"

def SlotKind.label : SlotKind → SlotLabel
  | sourceVariable .. => .sourceVariable
  | constant _ => .constant
  | refinement _ => .refinement
  | existential .. => .existential
  | combine .. => .combine
  | leastUpperBound .. => .leastUpperBound
  | arithmetic => .arithmetic
  | polyInvoke => .polyInvoke

structure Slot where
  id : SlotId
  location : Location
  kind : SlotKind
deriving DecidableEq, Repr

namespace Slot

def constant? (slot : Slot) : Option Qualifier :=
  match slot.kind with
  | .constant q => some q
  | _ => none

def isConstant (slot : Slot) : Bool :=
  slot.constant?.isSome

def isVariable (slot : Slot) : Bool :=
  !slot.isConstant

-- Whether a solved qualifier may be written back to the source.
def isInsertable (slot : Slot) : Bool :=
  match slot.kind with
  | .sourceVariable _ insertable => insertable
  | _ => false

def describe (lattice : Lattice) (slot : Slot) : String :=
  let id := slot.id.text
  let location := slot.location.text
  match slot.kind with
  | .sourceVariable none _ => s!"VariableSlot({id}) at {location}"
  | .sourceVariable (some type) _ => s!"VariableSlot({id}, {type}) at {location}"
  | .constant q => s!"ConstantSlot({id}, {lattice.name q})"
  | .refinement refined => s!"RefinementSlot({id} refines {refined.text}) at {location}"
  | .existential potential alternative =>
      s!"ExistentialSlot({id}, {potential.text} or {alternative.text})"
  | .combine receiver declared => s!"CombineSlot({id}, {receiver.text} |> {declared.text})"
  | .leastUpperBound left right => s!"LubSlot({id}, {left.text} lub {right.text})"
  | .arithmetic => s!"ArithmeticSlot({id}) at {location}"
  | .polyInvoke => s!"PolyInvokeSlot({id}) at {location}"

end Slot

end Qualify
