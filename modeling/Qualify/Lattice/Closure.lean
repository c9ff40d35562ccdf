import Qualify.Table

namespace Qualify.Closure

-- Every node is related to itself and along the given edges.
def seed (size : Nat) (edges : List (Nat × Nat)) : Table Bool :=
  Table.ofFn size fun a b => a == b || edges.contains (a, b)

-- Adds the paths through one more node.
def through (table : Table Bool) (pivot : Nat) : Table Bool :=
  Table.ofFn table.size fun a b =>
    table.holds a b || (table.holds a pivot && table.holds pivot b)

-- The reflexive and transitive closure of the edges between the nodes below `size`: after the
-- first `k` nodes have been pivots, the table holds the paths whose inner nodes lie below `k`.
def closure (size : Nat) (edges : List (Nat × Nat)) : Table Bool :=
  (List.range size).foldl through (seed size edges)

end Qualify.Closure
