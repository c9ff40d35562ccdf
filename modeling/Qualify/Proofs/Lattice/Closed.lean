import Qualify.Constraint.Basic
import Qualify.Lattice.Build
import Qualify.Proofs.Except

namespace Qualify

def Table.Below (table : Table Qualifier) (size : Nat) : Prop :=
  ∀ q ∈ table.cells, q < size

namespace Lattice

structure Closed (lattice : Lattice) : Prop where
  size_pos : 0 < lattice.size
  joins : lattice.joins.Below lattice.size
  views : lattice.views.Below lattice.size
  operations : ∀ entry ∈ lattice.operations, entry.2.Below lattice.size

theorem getD_get?_lt {table : Table Qualifier} {size : Nat} (h : table.Below size)
    (hsize : 0 < size) (row column : Nat) : (table.get? row column).getD 0 < size := by
  cases hcell : table.get? row column with
  | none => exact hsize
  | some q => exact h q (Array.mem_of_getElem? hcell)

theorem Closed.adapt_lt {lattice : Lattice} (h : lattice.Closed) (receiver declared : Qualifier) :
    lattice.adapt receiver declared < lattice.size :=
  getD_get?_lt h.views h.size_pos _ _

theorem Closed.arithmetic_lt {lattice : Lattice} (h : lattice.Closed) (operation : Operation)
    (left right : Qualifier) : lattice.arithmetic operation left right < lattice.size := by
  refine getD_get?_lt ?_ h.size_pos _ _
  cases hlookup : lattice.operations.lookup operation with
  | none => exact h.joins
  | some table =>
      obtain ⟨before, after, heq, -⟩ := List.lookup_eq_some_iff.mp hlookup
      exact h.operations (operation, table) (by simp [heq])

theorem resolve_lt {names : List String} {name : String} {q : Qualifier}
    (h : resolve names name = .ok q) : q < names.length := by
  unfold resolve at h
  split at h
  · rename_i found hfound
    cases h
    exact (List.idxOf?_eq_some_iff.mp hfound).1
  · cases h

theorem setEntry_below {names : List String} {table after : Table Qualifier}
    {left right result : String} (hbelow : table.Below names.length)
    (h : setEntry names table left right result = .ok after) : after.Below names.length := by
  obtain ⟨value, hvalue, h⟩ := Except.bind_eq_ok.mp h
  obtain ⟨row, -, h⟩ := Except.bind_eq_ok.mp h
  obtain ⟨column, -, h⟩ := Except.bind_eq_ok.mp h
  cases h
  intro q hq
  rcases Array.mem_or_eq_of_mem_setIfInBounds hq with hq | rfl
  · exact hbelow q hq
  · exact resolve_lt hvalue

theorem closure_size (size : Nat) (edges : List (Nat × Nat)) :
    (Closure.closure size edges).size = size := by
  have hfold : ∀ (pivots : List Nat) (table : Table Bool),
      (pivots.foldl Closure.through table).size = table.size := by
    intro pivots
    induction pivots with
    | nil => exact fun table => rfl
    | cons pivot rest ih => exact fun table => ih (Closure.through table pivot)
  exact hfold (List.range size) (Closure.seed size edges)

theorem leastUpperBound?_lt {order : Table Bool} {a b c : Qualifier}
    (h : leastUpperBound? order a b = some c) : c < order.size := by
  have hmem := List.mem_of_find?_eq_some h
  exact List.mem_range.mp (List.mem_filter.mp hmem).1

theorem joinTable_below {names : List String} {order : Table Bool} {joins : Table Qualifier}
    (hsize : order.size = names.length) (h : joinTable names order = .ok joins) :
    joins.Below names.length := by
  obtain ⟨cells, hcells, h⟩ := Except.bind_eq_ok.mp h
  cases h
  refine fun q hq => Except.forall_mem_of_mapM (P := (· < names.length)) (fun pair c hc => ?_) _
    hcells q (List.mem_toArray.mp hq)
  cases hfound : leastUpperBound? order pair.1 pair.2 with
  | none => simp [hfound] at hc
  | some found =>
      have heq : found = c := by simpa [hfound] using hc
      exact heq ▸ hsize ▸ leastUpperBound?_lt hfound

theorem viewTable_below {names : List String} {entries : List (String × String × String)}
    {views : Table Qualifier} (hpos : 0 < names.length) (h : viewTable names entries = .ok views) :
    views.Below names.length := by
  refine Except.foldlM_invariant (P := fun table => table.Below names.length)
    (fun table entry after hbelow hset => setEntry_below hbelow hset) entries (fun q hq => ?_) h
  obtain ⟨cell, rfl⟩ := Array.mem_ofFn.mp hq
  exact Nat.mod_lt _ hpos

-- Invariant of the fold: each table so far has entries below the size. A new table starts from
-- the joins.
theorem operationTables_below {names : List String} {joins : Table Qualifier}
    {entries : List (Operation × String × String × String)}
    {operations : List (Operation × Table Qualifier)} (hjoins : joins.Below names.length)
    (h : operationTables names joins entries = .ok operations) :
    ∀ entry ∈ operations, entry.2.Below names.length := by
  refine Except.foldlM_invariant
    (P := fun tables : List (Operation × Table Qualifier) =>
      ∀ entry ∈ tables, entry.2.Below names.length)
    (fun tables entry after hbelow hset => ?_) entries (by simp) h
  obtain ⟨table, htable, hset⟩ := Except.bind_eq_ok.mp hset
  cases hset
  refine List.forall_mem_cons.mpr ⟨setEntry_below ?_ htable, hbelow⟩
  cases hlookup : tables.lookup entry.1 with
  | none => exact hjoins
  | some old =>
      obtain ⟨front, back, heq, -⟩ := List.lookup_eq_some_iff.mp hlookup
      exact hbelow (entry.1, old) (by simp [heq])

-- The tables that were made on the way, without the checks in between.
theorem build_steps {declaration : Declaration} {lattice : Lattice}
    (h : build declaration = .ok lattice) :
    declaration.names ≠ [] ∧ lattice.names = declaration.names ∧
      (∃ edges, joinTable declaration.names (Closure.closure declaration.names.length edges) =
        .ok lattice.joins) ∧
      viewTable declaration.names declaration.views = .ok lattice.views ∧
      operationTables declaration.names lattice.joins declaration.operations =
        .ok lattice.operations := by
  obtain ⟨_, hnonempty, h⟩ := Except.bind_eq_ok.mp h
  obtain ⟨-, -, h⟩ := Except.bind_eq_ok.mp h
  obtain ⟨edges, -, h⟩ := Except.bind_eq_ok.mp h
  obtain ⟨-, -, h⟩ := Except.bind_eq_ok.mp h
  obtain ⟨joins, hjoins, h⟩ := Except.bind_eq_ok.mp h
  obtain ⟨views, hviews, h⟩ := Except.bind_eq_ok.mp h
  obtain ⟨operations, hoperations, h⟩ := Except.bind_eq_ok.mp h
  cases h
  refine ⟨?_, rfl, ⟨edges, hjoins⟩, hviews, hoperations⟩
  unfold checkNonempty at hnonempty
  split at hnonempty
  · cases hnonempty
  · rename_i hne
    simpa using hne

theorem build_closed {declaration : Declaration} {lattice : Lattice}
    (h : build declaration = .ok lattice) : lattice.Closed := by
  obtain ⟨hne, hnames, ⟨edges, hjoins⟩, hviews, hoperations⟩ := build_steps h
  have hsize : lattice.size = declaration.names.length := congrArg List.length hnames
  have hpos := List.length_pos_of_ne_nil hne
  have hbelow := joinTable_below (closure_size _ _) hjoins
  constructor
  · exact hsize ▸ hpos
  · exact hsize ▸ hbelow
  · exact hsize ▸ viewTable_below hpos hviews
  · exact hsize ▸ operationTables_below hbelow hoperations

end Lattice

theorem TableFunction.apply_lt {lattice : Lattice} (h : lattice.Closed) (table : TableFunction)
    (a b : Qualifier) : table.apply lattice a b < lattice.size := by
  cases table with
  | adapt => exact h.adapt_lt a b
  | arithmetic operation => exact h.arithmetic_lt operation a b

end Qualify
