import Mathlib.Data.Fintype.EquivFin
import Mathlib.Data.Fintype.Card
import Mathlib.Order.WellFounded
import Qualify.Lattice.Basic

namespace Qualify.Lattice

section Extremes

-- An order of the numbers below a bound, read in one of its two directions.
variable {n : Nat} {le : Nat → Nat → Prop}
  (htrans : ∀ a b c, a < n → b < n → c < n → le a b → le b c → le a c)
  (hantisymm : ∀ a b, a < n → b < n → le a b → le b a → a = b)
include htrans hantisymm

-- There is no infinite descent in a finite order.
theorem exists_minimal_le (hrefl : ∀ a < n, le a a) {q : Nat} (hq : q < n) :
    ∃ m < n, le m q ∧ ∀ a < n, le a m → a = m := by
  let lt : Fin n → Fin n → Prop := fun a b => le a b ∧ a ≠ b
  have : IsTrans (Fin n) lt := by
    refine ⟨fun a b c hab hbc => ⟨htrans a b c a.isLt b.isLt c.isLt hab.1 hbc.1, ?_⟩⟩
    rintro rfl
    exact hab.2 (Fin.ext (hantisymm a b a.isLt b.isLt hab.1 hbc.1))
  have : Std.Irrefl lt := ⟨fun a ha => ha.2 rfl⟩
  obtain ⟨m, hmq, hmin⟩ := (Finite.wellFounded_of_trans_of_irrefl lt).has_min
    {m | le m q} ⟨⟨q, hq⟩, hrefl q hq⟩
  refine ⟨m, m.isLt, hmq, fun a ha ham => ?_⟩
  by_contra hne
  exact hmin ⟨a, ha⟩ (htrans a m q ha m.isLt hq ham hmq) ⟨ham, fun heq => hne (congrArg Fin.val heq)⟩

-- The only minimal number is the least one.
theorem minimals_eq_singleton_iff (hrefl : ∀ a < n, le a a) {minimals : List Nat}
    (hnodup : minimals.Nodup)
    (hmem : ∀ a, a ∈ minimals ↔ a < n ∧ ∀ b < n, le b a → b = a) {m : Nat} :
    minimals = [m] ↔ m < n ∧ ∀ a < n, le m a := by
  constructor
  · rintro rfl
    refine ⟨((hmem m).mp List.mem_cons_self).1, fun a ha => ?_⟩
    obtain ⟨least, hlt, hle, hminimal⟩ := exists_minimal_le htrans hantisymm hrefl ha
    have heq := List.mem_singleton.mp ((hmem least).mpr ⟨hlt, hminimal⟩)
    exact heq ▸ hle
  · rintro ⟨hm, hleast⟩
    rw [← List.perm_singleton, List.perm_ext_iff_of_nodup hnodup (List.nodup_singleton m)]
    intro a
    rw [hmem, List.mem_singleton]
    constructor
    · rintro ⟨ha, hminimal⟩
      exact (hminimal m hm (hleast a ha)).symm
    · rintro rfl
      exact ⟨hm, fun b hb hba => hantisymm b a hb hm hba (hleast b hb)⟩

end Extremes

structure IsJoin (lattice : Lattice) (a b c : Qualifier) : Prop where
  lt : c < lattice.size
  left : lattice.isSubtype a c = true
  right : lattice.isSubtype b c = true
  least : ∀ d < lattice.size, lattice.isSubtype a d = true → lattice.isSubtype b d = true →
    lattice.isSubtype c d = true

theorem IsJoin.symm {lattice : Lattice} {a b c : Qualifier} (h : lattice.IsJoin a b c) :
    lattice.IsJoin b a c :=
  ⟨h.lt, h.right, h.left, fun d hd hb ha => h.least d hd ha hb⟩

theorem isStrictSubtype_eq_false {lattice : Lattice} {a b : Qualifier} :
    lattice.isStrictSubtype a b = false ↔ (lattice.isSubtype a b = true → a = b) := by
  rw [isStrictSubtype, Bool.and_eq_false_iff, bne_eq_false_iff_eq, or_comm, ← Bool.not_eq_true,
    imp_iff_not_or]

theorem mem_bottoms {lattice : Lattice} {a : Qualifier} :
    a ∈ lattice.bottoms ↔
      a < lattice.size ∧ ∀ q < lattice.size, lattice.isSubtype q a = true → q = a := by
  simp [bottoms, qualifiers, isStrictSubtype_eq_false]

theorem mem_tops {lattice : Lattice} {a : Qualifier} :
    a ∈ lattice.tops ↔
      a < lattice.size ∧ ∀ q < lattice.size, lattice.isSubtype a q = true → a = q := by
  simp [tops, qualifiers, isStrictSubtype_eq_false]

theorem isComparable_of_incomparable {lattice : Lattice} {q p : Qualifier}
    (hq : lattice.incomparable q = []) (hp : p < lattice.size) :
    lattice.isComparable q p = true := by
  have hnone := List.filter_eq_nil_iff.mp hq p (List.mem_range.mpr hp)
  rw [isComparable, Bool.or_eq_true]
  by_contra hneither
  simp_all

structure Ordered (lattice : Lattice) : Prop where
  size_pos : 0 < lattice.size
  refl : ∀ a < lattice.size, lattice.isSubtype a a = true
  trans : ∀ a b c, a < lattice.size → b < lattice.size → c < lattice.size →
    lattice.isSubtype a b = true → lattice.isSubtype b c = true → lattice.isSubtype a c = true
  antisymm : ∀ a b, a < lattice.size → b < lattice.size → lattice.isSubtype a b = true →
    lattice.isSubtype b a = true → a = b
  isJoin_lub : ∀ a b, a < lattice.size → b < lattice.size → lattice.IsJoin a b (lattice.lub a b)

namespace Ordered

variable {lattice : Lattice} (h : lattice.Ordered)
include h

section Joins

variable {a b c : Qualifier} (ha : a < lattice.size) (hb : b < lattice.size)

include ha hb in
theorem lub_eq_of_isJoin (hjoin : lattice.IsJoin a b c) : lattice.lub a b = c := by
  have hlub := h.isJoin_lub a b ha hb
  exact h.antisymm _ _ hlub.lt hjoin.lt (hlub.least c hjoin.lt hjoin.left hjoin.right)
    (hjoin.least _ hlub.lt hlub.left hlub.right)

include ha hb in
theorem lub_comm : lattice.lub a b = lattice.lub b a :=
  h.lub_eq_of_isJoin ha hb (h.isJoin_lub b a hb ha).symm

include ha in
theorem lub_self : lattice.lub a a = a :=
  h.lub_eq_of_isJoin ha ha ⟨ha, h.refl a ha, h.refl a ha, fun _ _ had _ => had⟩

include ha hb in
theorem lub_assoc (hc : c < lattice.size) :
    lattice.lub (lattice.lub a b) c = lattice.lub a (lattice.lub b c) := by
  have hab := h.isJoin_lub a b ha hb
  have hbc := h.isJoin_lub b c hb hc
  have hall := h.isJoin_lub a (lattice.lub b c) ha hbc.lt
  refine h.lub_eq_of_isJoin hab.lt hc ⟨hall.lt, ?_, ?_, fun d hd habd hcd => ?_⟩
  · exact hab.least _ hall.lt hall.left (h.trans b _ _ hb hbc.lt hall.lt hbc.left hall.right)
  · exact h.trans c _ _ hc hbc.lt hall.lt hbc.right hall.right
  · have had := h.trans a _ d ha hab.lt hd hab.left habd
    have hbd := h.trans b _ d hb hab.lt hd hab.right habd
    exact hall.least d hd had (hbc.least d hd hbd hcd)

end Joins

theorem bottom?_eq_some_iff {b : Qualifier} :
    lattice.bottom? = some b ↔
      b < lattice.size ∧ ∀ q < lattice.size, lattice.isSubtype b q = true := by
  have hnodup : lattice.bottoms.Nodup := List.nodup_range.filter _
  rw [← minimals_eq_singleton_iff h.trans h.antisymm h.refl hnodup fun a => mem_bottoms, bottom?]
  split <;> simp_all

theorem trans_flip (a b c : Qualifier) (ha : a < lattice.size) (hb : b < lattice.size)
    (hc : c < lattice.size) (hba : lattice.isSubtype b a = true)
    (hcb : lattice.isSubtype c b = true) : lattice.isSubtype c a = true :=
  h.trans c b a hc hb ha hcb hba

theorem antisymm_flip (a b : Qualifier) (ha : a < lattice.size) (hb : b < lattice.size)
    (hba : lattice.isSubtype b a = true) (hab : lattice.isSubtype a b = true) : a = b :=
  h.antisymm a b ha hb hab hba

theorem top?_eq_some_iff {t : Qualifier} :
    lattice.top? = some t ↔
      t < lattice.size ∧ ∀ q < lattice.size, lattice.isSubtype q t = true := by
  have hnodup : lattice.tops.Nodup := List.nodup_range.filter _
  rw [← minimals_eq_singleton_iff h.trans_flip h.antisymm_flip h.refl hnodup fun a =>
    mem_tops.trans (by simp only [eq_comm]), top?]
  split <;> simp_all

-- Whatever is joined with a maximal qualifier stays below it.
theorem exists_top : ∃ t, lattice.top? = some t := by
  obtain ⟨t, ht, -, hmaximal⟩ :=
    exists_minimal_le h.trans_flip h.antisymm_flip h.refl h.size_pos
  refine ⟨t, h.top?_eq_some_iff.mpr ⟨ht, fun q hq => ?_⟩⟩
  have hjoin := h.isJoin_lub q t hq ht
  have heq := hmaximal _ hjoin.lt hjoin.right
  exact heq ▸ hjoin.left

end Ordered

end Qualify.Lattice
