import Qualify.Lattice.Basic
import Qualify.Slot.Id

namespace Qualify

-- A qualifier for each of some slots, sorted by slot.
structure Solution where
  entries : List (SlotId × Qualifier)
deriving DecidableEq, Repr

namespace Solution

def empty : Solution :=
  ⟨[]⟩

def size (solution : Solution) : Nat :=
  solution.entries.length

def get? (solution : Solution) (id : SlotId) : Option Qualifier :=
  solution.entries.lookup id

def contains (solution : Solution) (id : SlotId) : Bool :=
  (solution.get? id).isSome

def insertSorted (id : SlotId) (q : Qualifier) : List (SlotId × Qualifier) → List (SlotId × Qualifier)
  | [] => [(id, q)]
  | (other, value) :: rest =>
      if id = other then (id, q) :: rest
      else if id.index < other.index then (id, q) :: (other, value) :: rest
      else (other, value) :: insertSorted id q rest

-- A later value of a slot replaces an earlier one.
def insert (solution : Solution) (id : SlotId) (q : Qualifier) : Solution :=
  ⟨insertSorted id q solution.entries⟩

def ofList (pairs : List (SlotId × Qualifier)) : Solution :=
  pairs.foldl (fun solution (id, q) => solution.insert id q) empty

end Solution

end Qualify
