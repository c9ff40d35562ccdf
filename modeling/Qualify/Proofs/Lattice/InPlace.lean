import Qualify.Proofs.Lattice.Reachability

namespace Qualify

namespace Table

def Square {α : Type} (table : Table α) : Prop :=
  table.cells.size = table.size * table.size

theorem square_ofFn {α : Type} (size : Nat) (f : Nat → Nat → α) : (ofFn size f).Square :=
  Array.size_ofFn

theorem square_set {α : Type} {table : Table α} (h : table.Square) (row column : Nat) (value : α) :
    (table.set row column value).Square :=
  (Array.size_setIfInBounds ..).trans h

theorem get?_of_square {table : Table Bool} (h : table.Square) {row column : Nat}
    (hrow : row < table.size) (hcolumn : column < table.size) :
    table.get? row column = some (table.holds row column) := by
  have hcell : row * table.size + column < table.cells.size := h ▸ cell_lt hrow hcolumn
  rw [holds, get?, Array.getElem?_eq_getElem hcell, Option.getD_some]

-- Two pairs of positions share a cell only if they are equal.
theorem cell_inj {size row column row' column' : Nat} (hcolumn : column < size)
    (hcolumn' : column' < size) (h : row * size + column = row' * size + column') :
    row = row' ∧ column = column' := by
  have hdiv := congrArg (· / size) h
  have hmod := congrArg (· % size) h
  simp only [Nat.mul_comm _ size, Nat.mul_add_div (Nat.zero_lt_of_lt hcolumn), Nat.mul_add_mod,
    Nat.div_eq_of_lt hcolumn, Nat.div_eq_of_lt hcolumn', Nat.mod_eq_of_lt hcolumn,
    Nat.mod_eq_of_lt hcolumn', Nat.add_zero] at hdiv hmod
  exact ⟨hdiv, hmod⟩

-- Setting one cell leaves all others as they were.
theorem get?_set {α : Type} {table : Table α} (h : table.Square) {row column a b : Nat} (value : α)
    (hrow : row < table.size) (hcolumn : column < table.size) (hb : b < table.size) :
    (table.set row column value).get? a b =
      if a = row ∧ b = column then some value else table.get? a b := by
  have hcell : row * table.size + column < table.cells.size := h ▸ cell_lt hrow hcolumn
  have hget : (table.set row column value).get? a b =
      if row * table.size + column = a * table.size + b then some value else table.get? a b := by
    simp only [get?, set, Array.getElem?_setIfInBounds, hcell, if_true]
  rw [hget]
  by_cases heq : row * table.size + column = a * table.size + b
  · obtain ⟨rfl, rfl⟩ := cell_inj hcolumn hb heq
    simp
  · have hne : ¬(a = row ∧ b = column) := by
      rintro ⟨rfl, rfl⟩
      exact heq rfl
    simp [heq, hne]

theorem holds_set {table : Table Bool} (h : table.Square) {row column a b : Nat}
    (hrow : row < table.size) (hcolumn : column < table.size) (hb : b < table.size) :
    (table.set row column true).holds a b = true ↔
      table.holds a b = true ∨ (a = row ∧ b = column) := by
  rw [holds, get?_set h true hrow hcolumn hb]
  by_cases heq : a = row ∧ b = column
  · simp [heq]
  · simp [holds, heq]

-- A cell of a square table is its row times the size plus its column.
theorem eq_of_holds {table other : Table Bool} (h : table.Square) (hother : other.Square)
    (hsize : table.size = other.size)
    (hholds : ∀ a b, a < other.size → b < other.size → table.holds a b = other.holds a b) :
    table = other := by
  obtain ⟨size, cells⟩ := table
  obtain ⟨size', cells'⟩ := other
  cases hsize
  have hcells : cells = cells' := by
    refine Array.ext (h.trans hother.symm) fun cell hcell hcell' => ?_
    have hlt : cell < size * size := h ▸ hcell
    have hpos : 0 < size := Nat.pos_of_mul_pos_right (Nat.zero_lt_of_lt hlt)
    have hrow : cell / size < size := Nat.div_lt_of_lt_mul hlt
    have hsame := hholds (cell / size) (cell % size) hrow (Nat.mod_lt _ hpos)
    have hindex : cell / size * size + cell % size = cell := Nat.div_add_mod' cell size
    simpa [holds, get?, hindex, hcell, hcell'] using hsame
  rw [hcells]

end Table

namespace Closure

-- The table begins with no pair at all, and is then changed cell by cell.
def start (size : Nat) (edges : List (Nat × Nat)) : Table Bool :=
  ((List.range size).map (fun node => (node, node)) ++ edges).foldl
    (fun table pair => table.set pair.1 pair.2 true) (Table.ofFn size fun _ _ => false)

-- The row of the pivot is read while another row is changed, or that row itself.
def updateRow (pivot : Nat) (table : Table Bool) (row : Nat) : Table Bool :=
  if table.holds row pivot then
    (List.range table.size).foldl (fun table column =>
      if table.holds pivot column then table.set row column true else table) table
  else table

def update (table : Table Bool) (pivot : Nat) : Table Bool :=
  (List.range table.size).foldl (updateRow pivot) table

def inPlace (size : Nat) (edges : List (Nat × Nat)) : Table Bool :=
  (List.range size).foldl update (start size edges)

theorem foldl_set {pairs : List (Nat × Nat)} {table : Table Bool} (h : table.Square)
    (hpairs : ∀ pair ∈ pairs, pair.1 < table.size ∧ pair.2 < table.size) :
    (pairs.foldl (fun table pair => table.set pair.1 pair.2 true) table).Square ∧
      (pairs.foldl (fun table pair => table.set pair.1 pair.2 true) table).size = table.size ∧
      ∀ a b, b < table.size →
        ((pairs.foldl (fun table pair => table.set pair.1 pair.2 true) table).holds a b = true ↔
          table.holds a b = true ∨ (a, b) ∈ pairs) := by
  induction pairs generalizing table with
  | nil => exact ⟨h, rfl, by simp⟩
  | cons pair rest ih =>
      obtain ⟨hpair, hrest⟩ := List.forall_mem_cons.mp hpairs
      obtain ⟨hsquare, hsize, hholds⟩ := ih (table.square_set h pair.1 pair.2 true) hrest
      refine ⟨hsquare, hsize, fun a b hb => ?_⟩
      rw [List.foldl_cons, hholds a b hb, Table.holds_set h hpair.1 hpair.2 hb, List.mem_cons,
        or_assoc, Prod.ext_iff]

-- The nodes are set on the diagonal first and the edges after, which is the seed cell by cell.
theorem start_eq_seed {size : Nat} {edges : List (Nat × Nat)}
    (hedges : ∀ edge ∈ edges, edge.1 < size ∧ edge.2 < size) :
    start size edges = seed size edges := by
  have hpairs : ∀ pair ∈ (List.range size).map (fun node => (node, node)) ++ edges,
      pair.1 < size ∧ pair.2 < size := by
    intro pair hpair
    rcases List.mem_append.mp hpair with hnode | hedge
    · obtain ⟨node, hlt, rfl⟩ := List.mem_map.mp hnode
      exact ⟨List.mem_range.mp hlt, List.mem_range.mp hlt⟩
    · exact hedges pair hedge
  obtain ⟨hsquare, hsize, hholds⟩ :=
    foldl_set (Table.square_ofFn size fun _ _ => false) hpairs
  refine Table.eq_of_holds hsquare (Table.square_ofFn size _) hsize fun a b ha hb => ?_
  replace ha : a < size := ha
  replace hb : b < size := hb
  rw [Bool.eq_iff_iff, start, hholds a b hb, Table.holds_ofFn _ ha hb, holds_seed ha hb]
  have hdiagonal : (a, b) ∈ (List.range size).map (fun node => (node, node)) ↔ a = b := by
    rw [List.mem_map]
    constructor
    · rintro ⟨node, -, heq⟩
      cases heq
      rfl
    · rintro rfl
      exact ⟨a, List.mem_range.mpr ha, rfl⟩
  rw [List.mem_append, hdiagonal]
  simp

-- What the table can be while the cells for one pivot are changed: nothing is lost, and nothing is
-- added but paths through the pivot. So the row and the column of the pivot stay as they were.
structure Updating (before : Table Bool) (pivot : Nat) (table : Table Bool) : Prop where
  square : table.Square
  size_eq : table.size = before.size
  kept : ∀ a b, a < before.size → b < before.size → before.holds a b = true →
    table.holds a b = true
  sound : ∀ a b, a < before.size → b < before.size → table.holds a b = true →
    (through before pivot).holds a b = true

-- A part of the work on one pivot: it takes nothing back, and some cells are done with.
structure Advances (before : Table Bool) (pivot : Nat) (cells : Nat → Nat → Prop)
    (table after : Table Bool) : Prop where
  updating : Updating before pivot after
  grows : ∀ a b, a < before.size → b < before.size → table.holds a b = true →
    after.holds a b = true
  done : ∀ a b, a < before.size → b < before.size → cells a b →
    (through before pivot).holds a b = true → after.holds a b = true

section Pivot

variable {before table : Table Bool} {pivot : Nat}

-- Cells once done stay done, since the table only grows.
theorem Advances.foldl {step : Table Bool → Nat → Table Bool} {cells : Nat → Nat → Nat → Prop}
    {items : List Nat} (hstep : ∀ item ∈ items, ∀ table, Updating before pivot table →
      Advances before pivot (cells item) table (step table item))
    (h : Updating before pivot table) :
    Advances before pivot (fun a b => ∃ item ∈ items, cells item a b) table
      (items.foldl step table) := by
  induction items generalizing table with
  | nil => exact ⟨h, fun _ _ _ _ hholds => hholds, by simp⟩
  | cons item rest ih =>
      obtain ⟨hfirst, hothers⟩ := List.forall_mem_cons.mp hstep
      have hone := hfirst table h
      have hrest := ih hothers hone.updating
      refine ⟨hrest.updating, fun a b ha hb hholds => ?_, fun a b ha hb hcell hpath => ?_⟩
      · exact hrest.grows a b ha hb (hone.grows a b ha hb hholds)
      · obtain ⟨other, hother, hcell⟩ := hcell
        rcases List.mem_cons.mp hother with rfl | hother
        · exact hrest.grows a b ha hb (hone.done a b ha hb hcell hpath)
        · exact hrest.done a b ha hb ⟨other, hother, hcell⟩ hpath

variable (hpivot : pivot < before.size) (h : Updating before pivot table)
include hpivot h

theorem Updating.column_kept {a : Nat} (ha : a < before.size) (hholds : table.holds a pivot = true) :
    before.holds a pivot = true :=
  ((holds_through ha hpivot).mp (h.sound a pivot ha hpivot hholds)).elim id And.left

theorem Updating.row_kept {b : Nat} (hb : b < before.size) (hholds : table.holds pivot b = true) :
    before.holds pivot b = true :=
  ((holds_through hpivot hb).mp (h.sound pivot b hpivot hb hholds)).elim id And.right

-- The cell is set from the pivot row, which the round does not change, so that reading the old or
-- the new table is the same.
theorem advances_cell {row column : Nat} (hrow : row < before.size) (hcolumn : column < before.size)
    (hholds : before.holds row pivot = true) :
    Advances before pivot (fun a b => a = row ∧ b = column) table
      (if table.holds pivot column then table.set row column true else table) := by
  by_cases hcell : table.holds pivot column = true
  · have hset : ∀ a b, b < before.size → ((table.set row column true).holds a b = true ↔
        table.holds a b = true ∨ (a = row ∧ b = column)) := fun a b hb =>
      Table.holds_set h.square (h.size_eq ▸ hrow) (h.size_eq ▸ hcolumn) (h.size_eq ▸ hb)
    have hpath : (through before pivot).holds row column = true :=
      (holds_through hrow hcolumn).mpr (.inr ⟨hholds, h.row_kept hpivot hcolumn hcell⟩)
    rw [if_pos hcell]
    refine ⟨⟨table.square_set h.square row column true, h.size_eq, fun a b ha hb hold => ?_,
      fun a b ha hb hnew => ?_⟩, fun a b ha hb hold => ?_, fun a b ha hb hcell _ => ?_⟩
    · exact (hset a b hb).mpr (.inl (h.kept a b ha hb hold))
    · rcases (hset a b hb).mp hnew with hold | ⟨rfl, rfl⟩
      · exact h.sound a b ha hb hold
      · exact hpath
    · exact (hset a b hb).mpr (.inl hold)
    · exact (hset a b hb).mpr (.inr hcell)
  · rw [if_neg hcell]
    refine ⟨h, fun a b _ _ hold => hold, ?_⟩
    rintro a b ha hb ⟨rfl, rfl⟩ hpath
    rcases (holds_through ha hb).mp hpath with hold | ⟨-, hold⟩
    · exact h.kept a b ha hb hold
    · exact absurd (h.kept pivot b hpivot hb hold) hcell

-- A row without the pivot is left as it is, and has no path through the pivot.
theorem advances_row {row : Nat} (hrow : row < before.size) :
    Advances before pivot (fun a _ => a = row) table (updateRow pivot table row) := by
  unfold updateRow
  by_cases hholds : table.holds row pivot = true
  · rw [if_pos hholds, h.size_eq]
    have hcells := Advances.foldl (fun column hcolumn other hother =>
      advances_cell hpivot hother hrow (List.mem_range.mp hcolumn)
        (h.column_kept hpivot hrow hholds)) h
    refine ⟨hcells.updating, hcells.grows, fun a b ha hb heq => hcells.done a b ha hb ?_⟩
    exact ⟨b, List.mem_range.mpr hb, heq, rfl⟩
  · rw [if_neg hholds]
    refine ⟨h, fun a b _ _ hold => hold, ?_⟩
    rintro a b ha hb rfl hpath
    rcases (holds_through ha hb).mp hpath with hold | ⟨hold, -⟩
    · exact h.kept a b ha hb hold
    · exact absurd (h.kept a pivot ha hpivot hold) hholds

end Pivot

-- Reading the table while it is changed makes no difference.
theorem update_eq_through {table : Table Bool} (h : table.Square) {pivot : Nat}
    (hpivot : pivot < table.size) : update table pivot = through table pivot := by
  have hstart : Updating table pivot table :=
    ⟨h, rfl, fun _ _ _ _ hold => hold, fun a b ha hb hold => (holds_through ha hb).mpr (.inl hold)⟩
  have hrows := Advances.foldl
    (fun row hrow other hother => advances_row hpivot hother (List.mem_range.mp hrow)) hstart
  refine Table.eq_of_holds hrows.updating.square (Table.square_ofFn table.size _)
    hrows.updating.size_eq fun a b ha hb => ?_
  rw [Bool.eq_iff_iff]
  exact ⟨hrows.updating.sound a b ha hb,
    hrows.done a b ha hb ⟨a, List.mem_range.mpr ha, rfl⟩⟩

theorem square_foldl_through {table : Table Bool} (h : table.Square) (pivots : List Nat) :
    (pivots.foldl through table).Square := by
  induction pivots generalizing table with
  | nil => exact h
  | cons pivot rest ih => exact ih (Table.square_ofFn table.size _)

theorem square_closure (size : Nat) (edges : List (Nat × Nat)) : (closure size edges).Square :=
  square_foldl_through (Table.square_ofFn size _) _

-- Pivot by pivot: updating in place does what computing a fresh table does.
theorem inPlace_eq_closure {size : Nat} {edges : List (Nat × Nat)}
    (hedges : ∀ edge ∈ edges, edge.1 < size ∧ edge.2 < size) :
    inPlace size edges = closure size edges := by
  have hfold : ∀ (pivots : List Nat) (table : Table Bool), table.Square →
      (∀ pivot ∈ pivots, pivot < table.size) →
      pivots.foldl update table = pivots.foldl through table := by
    intro pivots
    induction pivots with
    | nil => exact fun table _ _ => rfl
    | cons pivot rest ih =>
        intro table hsquare hpivots
        obtain ⟨hpivot, hrest⟩ := List.forall_mem_cons.mp hpivots
        rw [List.foldl_cons, List.foldl_cons, update_eq_through hsquare hpivot]
        exact ih _ (Table.square_ofFn table.size _) hrest
  rw [inPlace, closure, start_eq_seed hedges]
  exact hfold _ _ (Table.square_ofFn size _) fun pivot hpivot => List.mem_range.mp hpivot

end Closure

end Qualify
