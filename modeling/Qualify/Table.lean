namespace Qualify

-- A square table, stored row after row. Only the position in the store is checked when an entry
-- is read, so a column beyond the last one reads on in the rows below.
structure Table (α : Type) where
  size : Nat
  cells : Array α
deriving Repr

namespace Table

variable {α : Type}

def ofFn (size : Nat) (f : Nat → Nat → α) : Table α :=
  ⟨size, Array.ofFn fun cell : Fin (size * size) => f (cell.val / size) (cell.val % size)⟩

def get? (table : Table α) (row column : Nat) : Option α :=
  table.cells[row * table.size + column]?

def set (table : Table α) (row column : Nat) (value : α) : Table α :=
  { table with cells := table.cells.setIfInBounds (row * table.size + column) value }

-- A table of truth values as a relation. What is not in the table is not related.
def holds (table : Table Bool) (row column : Nat) : Bool :=
  (table.get? row column).getD false

end Table

end Qualify
