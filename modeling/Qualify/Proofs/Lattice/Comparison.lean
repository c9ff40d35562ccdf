import Mathlib.Order.Defs.Unbundled
import Qualify.Proofs.Lattice.Building
import Qualify.Proofs.Lattice.InPlace

namespace Qualify.Lattice

section Incomparable

variable {lattice : Lattice} {a b : Qualifier}

theorem mem_incomparable :
    b ∈ lattice.incomparable a ↔
      b < lattice.size ∧ lattice.isSubtype a b = false ∧ lattice.isSubtype b a = false := by
  simp [incomparable, qualifiers]

theorem pairwise_incomparable (lattice : Lattice) (a : Qualifier) :
    (lattice.incomparable a).Pairwise (· < ·) :=
  List.pairwise_lt_range.filter _

theorem mem_incomparable_comm (ha : a < lattice.size) (hb : b < lattice.size) :
    b ∈ lattice.incomparable a ↔ a ∈ lattice.incomparable b := by
  simp only [mem_incomparable, ha, hb, true_and]
  exact and_comm

-- With both directions in the table, the look-up of the second one cannot fail.
theorem isComparable?_eq (hab : lattice.isSubtype? a b = some (lattice.isSubtype a b))
    (hba : lattice.isSubtype? b a = some (lattice.isSubtype b a)) :
    lattice.isComparable? a b = some (lattice.isComparable a b) := by
  rw [isComparable?, hab, hba, isComparable]
  cases lattice.isSubtype a b <;> rfl

theorem isComparable_eq_false :
    lattice.isComparable a b = false ↔
      lattice.isSubtype a b = false ∧ lattice.isSubtype b a = false :=
  Bool.or_eq_false_iff

end Incomparable

theorem Ordered.isPartialOrder {lattice : Lattice} (h : lattice.Ordered) :
    IsPartialOrder (Fin lattice.size) fun a b => lattice.isSubtype a b = true where
  refl a := h.refl a a.isLt
  trans a b c := h.trans a b c a.isLt b.isLt c.isLt
  antisymm a b hab hba := Fin.ext (h.antisymm a b a.isLt b.isLt hab hba)

namespace Declaration.Realizes

variable {declaration : Declaration} {lattice : Lattice} (h : declaration.Realizes lattice)
include h

theorem order_eq_inPlace :
    lattice.order = Closure.inPlace declaration.names.length declaration.edgeIndices := by
  rw [h.order_eq, order, Closure.inPlace_eq_closure]
  refine List.forall_mem_map.mpr fun edge hedge => ?_
  obtain ⟨hsub, hsup⟩ := h.passes .edgeNames edge hedge
  exact ⟨List.idxOf_lt_length_of_mem hsub, List.idxOf_lt_length_of_mem hsup⟩

theorem isSubtype?_eq {a b : Qualifier} (ha : a < lattice.size) (hb : b < lattice.size) :
    lattice.isSubtype? a b = some (lattice.isSubtype a b) := by
  have hsize : lattice.order.size = lattice.size := by
    rw [h.order_eq, h.size_eq]
    exact closure_size _ _
  have hsquare : lattice.order.Square := by
    rw [h.order_eq]
    exact Closure.square_closure _ _
  exact Table.get?_of_square hsquare (hsize ▸ ha) (hsize ▸ hb)

end Declaration.Realizes

-- Subtyping is reachability along the declared edges, which is a partial order, and what is listed
-- as incomparable is what is related in neither direction.
theorem build_subtyping {declaration : Declaration} {lattice : Lattice}
    (hbuild : build declaration = .ok lattice) :
    lattice.names = declaration.names ∧
      lattice.order = Closure.inPlace declaration.names.length declaration.edgeIndices ∧
      (∀ a b, a < lattice.size → b < lattice.size →
        lattice.isSubtype? a b = some (lattice.isSubtype a b) ∧
        lattice.isComparable? a b = some (lattice.isComparable a b) ∧
        (lattice.isSubtype a b = true ↔
          declaration.Below (lattice.name a) (lattice.name b))) ∧
      IsPartialOrder (Fin lattice.size) (fun a b => lattice.isSubtype a b = true) ∧
      ∀ a < lattice.size,
        lattice.incomparable? a = some (lattice.incomparable a) ∧
        (lattice.incomparable a).Pairwise (· < ·) ∧
        (∀ b, b ∈ lattice.incomparable a ↔
          b < lattice.size ∧ lattice.isSubtype a b = false ∧ lattice.isSubtype b a = false) ∧
        ∀ b < lattice.size, (b ∈ lattice.incomparable a ↔ a ∈ lattice.incomparable b) ∧
          (b ∈ lattice.incomparable a ↔ lattice.isComparable a b = false) := by
  have hrealizes := build_realizes hbuild
  refine ⟨hrealizes.names_eq, hrealizes.order_eq_inPlace, fun a b ha hb => ?_,
    hrealizes.ordered.isPartialOrder, fun a ha => ?_⟩
  · have hab := hrealizes.isSubtype?_eq ha hb
    exact ⟨hab, isComparable?_eq hab (hrealizes.isSubtype?_eq hb ha),
      hrealizes.isSubtype_iff ha hb⟩
  · refine ⟨if_pos (decide_eq_true ha), pairwise_incomparable lattice a,
      fun b => mem_incomparable, fun b hb => ⟨mem_incomparable_comm ha hb, ?_⟩⟩
    rw [mem_incomparable, isComparable_eq_false, and_iff_right hb]

def diamond : Declaration where
  names := ["Top", "Left", "Right", "Bottom"]
  edges := [("Left", "Top"), ("Right", "Top"), ("Bottom", "Left"), ("Bottom", "Right")]
  views := []
  operations := []

theorem diamond_build_subtyping :
    ∃ lattice, build diamond = .ok lattice ∧ lattice.isSubtype? 3 0 = some true ∧
      lattice.incomparable? 1 = some [2] ∧ 1 ∈ lattice.incomparable 2 ∧
      lattice.isComparable? 1 2 = some false := by
  obtain ⟨lattice, hbuild, hnames, hlist⟩ : ∃ lattice, build diamond = .ok lattice ∧
      lattice.names = diamond.names ∧ lattice.incomparable 1 = [2] := ⟨_, rfl, rfl, by decide⟩
  have hsize : lattice.size = 4 := congrArg List.length hnames
  obtain ⟨-, -, hsubtype, -, hincomparable⟩ := build_subtyping hbuild
  obtain ⟨hlookup, -, hreachable⟩ := hsubtype 3 0 (by omega) (by omega)
  obtain ⟨hgiven, -, -, hboth⟩ := hincomparable 1 (by omega)
  obtain ⟨hcomm, hneither⟩ := hboth 2 (by omega)
  have hbelow : diamond.Below "Bottom" "Top" :=
    (Relation.ReflTransGen.single (b := "Left") (by decide)).tail (by decide)
  have hmem : 2 ∈ lattice.incomparable 1 := hlist ▸ List.mem_singleton.mpr rfl
  refine ⟨lattice, hbuild, hlookup.trans (congrArg some (hreachable.mpr ?_)),
    hgiven.trans (congrArg some hlist), hcomm.mp hmem,
    (hsubtype 1 2 (by omega) (by omega)).2.1.trans (congrArg some (hneither.mp hmem))⟩
  simpa [name, name?, hnames, diamond] using hbelow

end Qualify.Lattice
