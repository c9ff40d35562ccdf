namespace Qualify

-- Slots are numbered from one in the order of their creation, and numbers fit in 32 bits. The
-- position of a slot, which starts at zero, is what is stored.
structure SlotId where
  index : Nat
  index_lt : index < 0xFFFFFFFF
deriving DecidableEq, Repr

namespace SlotId

def ofIndex? (index : Nat) : Option SlotId :=
  if h : index < 0xFFFFFFFF then some ⟨index, h⟩ else none

def ofNumber? (number : Nat) : Option SlotId :=
  if number = 0 then none else ofIndex? (number - 1)

def number (id : SlotId) : Nat :=
  id.index + 1

def text (id : SlotId) : String :=
  toString id.number

end SlotId

end Qualify
