import Qualify.Clause.Basic
import Qualify.Constraint.Visit

namespace Qualify

-- The boolean variables. Each slot has one per qualifier, in the order of slots and qualifiers;
-- after this matrix come the potential slots, one variable each, in the order of first use.
structure Numbering where
  size : Nat
  matrix : Nat
  potentials : List SlotId
deriving DecidableEq, Repr

namespace Numbering

def ofRegistry (registry : Registry) : Numbering where
  size := registry.lattice.size
  matrix := registry.slots.size * registry.lattice.size % 0x100000000
  potentials := []

-- The last number in use.
def count (numbering : Numbering) : Nat :=
  numbering.matrix + numbering.potentials.length

-- The literal that says that a slot takes a qualifier.
def literal (numbering : Numbering) (id : SlotId) (q : Qualifier) : Literal :=
  Literal.narrow (id.index * numbering.size + q + 1)

-- The literal that says that a potential slot is present.
def presence (numbering : Numbering) (potential : SlotId) : Literal :=
  Literal.narrow (numbering.matrix + numbering.potentials.idxOf potential + 1)

-- Numbers of variables are held in 32 bits, and there may be none left for a potential slot.
def presence? (numbering : Numbering) (potential : SlotId) : Except Fault Literal :=
  if numbering.matrix + numbering.potentials.idxOf potential + 1 < 0x100000000 then
    .ok (numbering.presence potential)
  else .error .overflow

def use (numbering : Numbering) (potential : SlotId) : Numbering :=
  if numbering.potentials.contains potential then numbering
  else { numbering with potentials := numbering.potentials ++ [potential] }

def useAll (numbering : Numbering) (potentials : List SlotId) : Numbering :=
  potentials.foldl use numbering

-- The slot and qualifier that a variable of the matrix belongs to.
def decode? (registry : Registry) (number : Nat) : Option (SlotId × Qualifier) :=
  let size := registry.lattice.size
  if number = 0 || registry.slots.size * size ≤ number - 1 then none
  else (SlotId.ofIndex? ((number - 1) / size)).map fun id => (id, (number - 1) % size)

end Numbering

end Qualify
