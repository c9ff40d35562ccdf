import Qualify.Proofs.Entries
import Qualify.Proofs.Lattice.Building
import Qualify.Proofs.Lattice.InPlace

namespace Qualify.Lattice

namespace Declaration

variable (declaration : Declaration)

def lastView (receiver declared : String) : Option String :=
  (Entries.lastFor (fun entry => (entry.1, entry.2.1)) (receiver, declared)
    declaration.views).map (·.2.2)

def lastResult (operation : Operation) (left right : String) : Option String :=
  (Entries.lastFor (fun entry => (entry.1, entry.2.1, entry.2.2.1)) (operation, left, right)
    declaration.operations).map (·.2.2.2)

end Declaration

structure Shaped (names : List String) (table : Table Qualifier) : Prop where
  size_eq : table.size = names.length
  square : table.Square

theorem Shaped.exists_get? {names : List String} {table : Table Qualifier}
    (h : Shaped names table) {a b : Qualifier} (ha : a < names.length) (hb : b < names.length) :
    ∃ q, table.get? a b = some q := by
  have hcell : a * table.size + b < table.cells.size := by
    rw [h.square, h.size_eq]
    exact Table.cell_lt ha hb
  exact ⟨_, Array.getElem?_eq_getElem hcell⟩

theorem length_pairs (size : Nat) : (pairs size).length = size * size := by
  simp [pairs, List.length_flatMap]

theorem shaped_joinTable {names : List String} {order : Table Bool} {joins : Table Qualifier}
    (h : joinTable names order = .ok joins) : Shaped names joins := by
  obtain ⟨cells, hcells, h⟩ := Except.bind_eq_ok.mp h
  cases h
  refine ⟨rfl, ?_⟩
  have hlength := Except.length_of_mapM hcells
  rw [length_pairs] at hlength
  exact hlength

section Entries

variable {names : List String} (hdistinct : names.Nodup)

theorem resolve_eq_ok {name : String} {q : Qualifier} :
    resolve names name = .ok q ↔ names.idxOf? name = some q := by
  unfold resolve
  cases names.idxOf? name <;> simp

include hdistinct in
theorem idxOf?_eq_some_iff {name : String} {q a : Qualifier} (h : names.idxOf? name = some q)
    (ha : a < names.length) : a = q ↔ name = names.getD a "" := by
  obtain ⟨hq, hget, -⟩ := List.idxOf?_eq_some_iff.mp h
  constructor
  · rintro rfl
    rw [List.getD_eq_getElem names "" ha, hget]
  · intro hname
    rw [← idxOf_getD hdistinct ha, ← hname, List.idxOf_eq_getD_idxOf?, h]
    rfl

-- An entry sets the cell of its operands and no other.
include hdistinct in
theorem get?_setEntry {table after : Table Qualifier} {left right result : String}
    (hshaped : Shaped names table) (h : setEntry names table left right result = .ok after) :
    Shaped names after ∧ ∀ a b, a < names.length → b < names.length →
      after.get? a b = if (left, right) = (names.getD a "", names.getD b "")
        then names.idxOf? result else table.get? a b := by
  obtain ⟨value, hvalue, h⟩ := Except.bind_eq_ok.mp h
  obtain ⟨row, hrow, h⟩ := Except.bind_eq_ok.mp h
  obtain ⟨column, hcolumn, h⟩ := Except.bind_eq_ok.mp h
  cases h
  refine ⟨⟨hshaped.size_eq, Table.square_set hshaped.square _ _ _⟩, fun a b ha hb => ?_⟩
  have hsize := hshaped.size_eq
  have hoperands : a = row ∧ b = column ↔ (left, right) = (names.getD a "", names.getD b "") := by
    rw [idxOf?_eq_some_iff hdistinct (resolve_eq_ok.mp hrow) ha,
      idxOf?_eq_some_iff hdistinct (resolve_eq_ok.mp hcolumn) hb, Prod.mk.injEq]
  rw [Table.get?_set hshaped.square value (hsize ▸ resolve_lt hrow) (hsize ▸ resolve_lt hcolumn)
    (hsize ▸ hb), resolve_eq_ok.mp hvalue]
  simp only [hoperands]

include hdistinct in
theorem get?_viewTable {entries : List (String × String × String)} {views : Table Qualifier}
    (h : viewTable names entries = .ok views) {a b : Qualifier} (ha : a < names.length)
    (hb : b < names.length) :
    Shaped names views ∧ views.get? a b =
      (Entries.lastFor (fun entry => (entry.1, entry.2.1)) (names.getD a "", names.getD b "")
        entries).elim (some b) fun entry => names.idxOf? entry.2.2 := by
  rw [← Table.get?_ofFn (fun _ declared => declared) ha hb]
  refine Entries.read_foldlM _ _ (Shaped names) (fun table => table.get? a b)
    (fun before entry after hshaped hset => ?_) entries ⟨rfl, Table.square_ofFn _ _⟩ h
  obtain ⟨hafter, hcells⟩ := get?_setEntry hdistinct hshaped hset
  exact ⟨hafter, hcells a b ha hb⟩

-- Tables of other operations are not touched by an entry, not even where a table is made for it.
include hdistinct in
theorem get?_operationTables {joins : Table Qualifier}
    {entries : List (Operation × String × String × String)}
    {tables : List (Operation × Table Qualifier)} (hjoins : Shaped names joins)
    (h : operationTables names joins entries = .ok tables) (operation : Operation)
    {a b : Qualifier} (ha : a < names.length) (hb : b < names.length) :
    (∀ operation, Shaped names ((tables.lookup operation).getD joins)) ∧
      ((tables.lookup operation).getD joins).get? a b =
        (Entries.lastFor (fun entry => (entry.1, entry.2.1, entry.2.2.1))
          (operation, names.getD a "", names.getD b "") entries).elim (joins.get? a b)
          fun entry => names.idxOf? entry.2.2.2 := by
  refine Entries.read_foldlM (fun entry => (entry.1, entry.2.1, entry.2.2.1)) _
    (fun tables => ∀ operation, Shaped names ((tables.lookup operation).getD joins))
    (fun tables => ((tables.lookup operation).getD joins).get? a b)
    (fun before entry after hshaped hset => ?_) entries (fun _ => hjoins) h
  obtain ⟨table, htable, hset⟩ := Except.bind_eq_ok.mp hset
  cases hset
  obtain ⟨hafter, hcells⟩ := get?_setEntry hdistinct (hshaped entry.1) htable
  have hother : ∀ other, other ≠ entry.1 →
      ((entry.1, table) :: before).lookup other = before.lookup other := by
    intro other hne
    simp [List.lookup_cons, beq_false_of_ne hne]
  constructor
  · intro other
    by_cases heq : other = entry.1
    · simpa [heq] using hafter
    · rw [hother other heq]
      exact hshaped other
  · by_cases heq : operation = entry.1
    · simp [heq, hcells a b ha hb]
    · rw [hother operation heq]
      simp [Ne.symm heq]

end Entries

-- Each cell of the tables holds what the last entry for it says. Without an entry, a receiver
-- changes nothing and an operation gives the least upper bound.
theorem build_tables {declaration : Declaration} {lattice : Lattice}
    (hbuild : build declaration = .ok lattice) (a b : Qualifier) (ha : a < lattice.size)
    (hb : b < lattice.size) :
    (lattice.adapt? a b = some (lattice.adapt a b) ∧
      lattice.adapt? a b = (declaration.lastView (lattice.name a) (lattice.name b)).elim (some b)
        lattice.find?) ∧
    ∀ operation, lattice.arithmetic? operation a b = some (lattice.arithmetic operation a b) ∧
      lattice.arithmetic? operation a b =
        (declaration.lastResult operation (lattice.name a) (lattice.name b)).elim
          (some (lattice.lub a b)) lattice.find? := by
  have hrealizes := build_realizes hbuild
  have hdistinct := hrealizes.passes .distinct
  obtain ⟨-, -, ⟨edges, hjoins⟩, hviews, hoperations⟩ := build_steps hbuild
  have hfind : lattice.find? = declaration.names.idxOf? := by
    rw [← hrealizes.names_eq]
    rfl
  have hlub := hrealizes.lub?_eq ha hb
  rw [hrealizes.name_eq, hrealizes.name_eq, hfind, ← hlub]
  rw [hrealizes.size_eq] at ha hb
  refine ⟨?_, fun operation => ?_⟩
  · obtain ⟨hshaped, hget⟩ := get?_viewTable hdistinct hviews ha hb
    obtain ⟨q, hq⟩ := hshaped.exists_get? ha hb
    refine ⟨?_, ?_⟩
    · rw [adapt, adapt?, hq]
      rfl
    · rw [Declaration.lastView, Option.elim_map]
      exact hget
  · obtain ⟨hshaped, hget⟩ := get?_operationTables hdistinct (shaped_joinTable hjoins) hoperations
      operation ha hb
    obtain ⟨q, hq⟩ := (hshaped operation).exists_get? ha hb
    refine ⟨?_, ?_⟩
    · rw [arithmetic, arithmetic?, hq]
      rfl
    · rw [Declaration.lastResult, Option.elim_map]
      exact hget

def amended : Declaration where
  names := ["Top", "Left", "Right", "Bottom"]
  edges := [("Left", "Top"), ("Right", "Top"), ("Bottom", "Left"), ("Bottom", "Right")]
  views := [("Top", "Left", "Bottom"), ("Left", "Top", "Right"), ("Top", "Left", "Right")]
  operations := [(.plus, "Left", "Right", "Bottom"), (.minus, "Left", "Right", "Left"),
    (.plus, "Right", "Left", "Bottom"), (.plus, "Left", "Right", "Right")]

theorem amended_build_tables :
    ∃ lattice, build amended = .ok lattice ∧
      lattice.adapt? 0 1 = some 2 ∧ lattice.adapt? 1 0 = some 2 ∧ lattice.adapt? 2 1 = some 1 ∧
      lattice.arithmetic? .plus 1 2 = some 2 ∧ lattice.arithmetic? .minus 1 2 = some 1 ∧
      lattice.arithmetic? .minus 2 1 = some (lattice.lub 2 1) := by
  obtain ⟨lattice, hbuild, hnames⟩ : ∃ lattice, build amended = .ok lattice ∧
      lattice.names = amended.names := ⟨_, rfl, rfl⟩
  have hsize : lattice.size = 4 := congrArg List.length hnames
  have hname : ∀ q, lattice.name q = amended.names.getD q "" := (build_realizes hbuild).name_eq
  have hfind : lattice.find? = amended.names.idxOf? := by
    rw [← hnames]
    rfl
  have htables := fun a b ha hb => build_tables hbuild a b ha hb
  simp only [hsize, hname, hfind] at htables
  refine ⟨lattice, hbuild, ?_, ?_, ?_, ?_, ?_, ?_⟩
  · exact (htables 0 1 (by decide) (by decide)).1.2
  · exact (htables 1 0 (by decide) (by decide)).1.2
  · exact (htables 2 1 (by decide) (by decide)).1.2
  · exact ((htables 1 2 (by decide) (by decide)).2 .plus).2
  · exact ((htables 1 2 (by decide) (by decide)).2 .minus).2
  · exact ((htables 2 1 (by decide) (by decide)).2 .minus).2

end Qualify.Lattice
