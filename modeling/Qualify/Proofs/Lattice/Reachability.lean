import Mathlib.Logic.Relation
import Qualify.Lattice.Closure

namespace Qualify

namespace Table

theorem cell_lt {size row column : Nat} (hrow : row < size) (hcolumn : column < size) :
    row * size + column < size * size := by
  have hle : (row + 1) * size ≤ size * size := Nat.mul_le_mul_right size hrow
  rw [Nat.succ_mul] at hle
  omega

theorem get?_ofFn {α : Type} {size row column : Nat} (f : Nat → Nat → α) (hrow : row < size)
    (hcolumn : column < size) : (ofFn size f).get? row column = some (f row column) := by
  have hpos : 0 < size := Nat.zero_lt_of_lt hrow
  have hdiv : (row * size + column) / size = row := by
    rw [Nat.mul_comm, Nat.mul_add_div hpos, Nat.div_eq_of_lt hcolumn, Nat.add_zero]
  have hmod : (row * size + column) % size = column := by
    rw [Nat.mul_comm, Nat.mul_add_mod, Nat.mod_eq_of_lt hcolumn]
  simp [get?, ofFn, cell_lt hrow hcolumn, hdiv, hmod]

theorem holds_ofFn {size row column : Nat} (f : Nat → Nat → Bool) (hrow : row < size)
    (hcolumn : column < size) : (ofFn size f).holds row column = f row column := by
  rw [holds, get?_ofFn f hrow hcolumn, Option.getD_some]

end Table

namespace Closure

variable {size : Nat} {edges : List (Nat × Nat)}

theorem holds_seed {a b : Nat} (ha : a < size) (hb : b < size) :
    (seed size edges).holds a b = true ↔ a = b ∨ (a, b) ∈ edges := by
  rw [seed, Table.holds_ofFn _ ha hb, Bool.or_eq_true, beq_iff_eq, List.contains_iff_mem]

theorem holds_through {table : Table Bool} {pivot a b : Nat} (ha : a < table.size)
    (hb : b < table.size) :
    (through table pivot).holds a b = true ↔
      table.holds a b = true ∨ table.holds a pivot = true ∧ table.holds pivot b = true := by
  rw [through, Table.holds_ofFn _ ha hb, Bool.or_eq_true, Bool.and_eq_true]

def ClosedAt (table : Table Bool) (node : Nat) : Prop :=
  ∀ a b, a < table.size → b < table.size → table.holds a node = true →
    table.holds node b = true → table.holds a b = true

theorem size_through (table : Table Bool) (pivot : Nat) :
    (through table pivot).size = table.size :=
  rfl

theorem closedAt_pivot {table : Table Bool} {pivot : Nat} (hpivot : pivot < table.size) :
    ClosedAt (through table pivot) pivot := by
  intro a b ha hb hleft hright
  rw [size_through] at ha hb
  rw [holds_through ha hpivot] at hleft
  rw [holds_through hpivot hb] at hright
  exact (holds_through ha hb).mpr (.inr ⟨hleft.elim id And.left, hright.elim id And.right⟩)

-- A later pivot leads around no node that was a pivot before.
theorem closedAt_through {table : Table Bool} {node pivot : Nat} (hnode : node < table.size)
    (hpivot : pivot < table.size) (h : ClosedAt table node) :
    ClosedAt (through table pivot) node := by
  intro a b ha hb hleft hright
  rw [size_through] at ha hb
  rw [holds_through ha hnode] at hleft
  rw [holds_through hnode hb] at hright
  rw [holds_through ha hb]
  rcases hleft with hleft | ⟨hap, hpn⟩
  · rcases hright with hright | ⟨hnp, hpb⟩
    · exact .inl (h a b ha hb hleft hright)
    · exact .inr ⟨h a pivot ha hpivot hleft hnp, hpb⟩
  · rcases hright with hright | ⟨-, hpb⟩
    · exact .inr ⟨hap, h pivot b hpivot hb hpn hright⟩
    · exact .inr ⟨hap, hpb⟩

-- What a table holds on the way: nothing but paths, all single edges, and all paths through the
-- nodes that were pivots.
structure Partial (size : Nat) (edges : List (Nat × Nat)) (pivots : List Nat) (table : Table Bool) :
    Prop where
  size_eq : table.size = size
  sound : ∀ a b, a < size → b < size → table.holds a b = true →
    Relation.ReflTransGen (fun i j => (i, j) ∈ edges) a b
  seeded : ∀ a b, a < size → b < size → a = b ∨ (a, b) ∈ edges → table.holds a b = true
  closed : ∀ node ∈ pivots, node < size ∧ ClosedAt table node

theorem partial_seed (size : Nat) (edges : List (Nat × Nat)) :
    Partial size edges [] (seed size edges) where
  size_eq := rfl
  sound a b ha hb h := by
    rcases (holds_seed ha hb).mp h with rfl | hedge
    · exact .refl
    · exact .single hedge
  seeded a b ha hb h := (holds_seed ha hb).mpr h
  closed node hnode := absurd hnode List.not_mem_nil

theorem Partial.step {pivots : List Nat} {table : Table Bool}
    (h : Partial size edges pivots table) {pivot : Nat} (hpivot : pivot < size) :
    Partial size edges (pivot :: pivots) (Closure.through table pivot) := by
  obtain ⟨rfl, hsound, hseeded, hclosed⟩ := h
  refine ⟨rfl, fun a b ha hb hholds => ?_, fun a b ha hb hbase => ?_,
    List.forall_mem_cons.mpr ⟨⟨hpivot, closedAt_pivot hpivot⟩, fun node hnode => ?_⟩⟩
  · rcases (holds_through ha hb).mp hholds with hab | ⟨hap, hpb⟩
    · exact hsound a b ha hb hab
    · exact (hsound a pivot ha hpivot hap).trans (hsound pivot b hpivot hb hpb)
  · exact (holds_through ha hb).mpr (.inl (hseeded a b ha hb hbase))
  · obtain ⟨hlt, hnode⟩ := hclosed node hnode
    exact ⟨hlt, closedAt_through hlt hpivot hnode⟩

theorem Partial.run {done : List Nat} {table : Table Bool} (h : Partial size edges done table)
    (pivots : List Nat) (hpivots : ∀ pivot ∈ pivots, pivot < size) :
    Partial size edges (pivots.reverse ++ done) (pivots.foldl Closure.through table) := by
  induction pivots generalizing done table with
  | nil => exact h
  | cons pivot rest ih =>
      obtain ⟨hpivot, hrest⟩ := List.forall_mem_cons.mp hpivots
      rw [List.reverse_cons, List.append_assoc, List.foldl_cons]
      exact ih (h.step hpivot) hrest

-- When all nodes have been pivots, the table holds all paths.
theorem holds_closure_iff (hedges : ∀ edge ∈ edges, edge.1 < size ∧ edge.2 < size) {a b : Nat}
    (ha : a < size) (hb : b < size) :
    (closure size edges).holds a b = true ↔
      Relation.ReflTransGen (fun i j => (i, j) ∈ edges) a b := by
  have hdone := (partial_seed size edges).run (List.range size) (by simp)
  constructor
  · exact hdone.sound a b ha hb
  · intro hpath
    induction hpath with
    | refl => exact hdone.seeded a a ha ha (.inl rfl)
    | @tail middle b hpath hedge ih =>
        have hmiddle := (hedges _ hedge).1
        have hclosed := (hdone.closed middle (by simpa using hmiddle)).2
        rw [ClosedAt, hdone.size_eq] at hclosed
        exact hclosed a b ha hb (ih hmiddle) (hdone.seeded middle b hmiddle hb (.inr hedge))

end Closure

end Qualify
