import Mathlib.Data.List.Dedup
import Qualify.Clause.Numbering
import Qualify.Proofs.Clause.Satisfaction
import Qualify.Proofs.Constraint.Meaning

namespace Qualify

namespace Numbering

@[simp] theorem use_size (numbering : Numbering) (potential : SlotId) :
    (numbering.use potential).size = numbering.size := by
  unfold use
  split <;> rfl

@[simp] theorem use_matrix (numbering : Numbering) (potential : SlotId) :
    (numbering.use potential).matrix = numbering.matrix := by
  unfold use
  split <;> rfl

theorem mem_use {numbering : Numbering} {potential p : SlotId} :
    p ∈ (numbering.use potential).potentials ↔ p ∈ numbering.potentials ∨ p = potential := by
  unfold use
  split
  · rename_i hcontains
    have hmem : potential ∈ numbering.potentials := by simpa using hcontains
    constructor
    · exact .inl
    · rintro (h | rfl)
      · exact h
      · exact hmem
  · simp

theorem nodup_use {numbering : Numbering} (potential : SlotId) (h : numbering.potentials.Nodup) :
    (numbering.use potential).potentials.Nodup := by
  unfold use
  split
  · exact h
  · rename_i hcontains
    have hnot : potential ∉ numbering.potentials := by simpa using hcontains
    exact h.append (List.nodup_singleton potential) (by simpa using hnot)

-- The variable of a potential slot stays its own.
theorem prefix_use (numbering : Numbering) (potential : SlotId) :
    numbering.potentials <+: (numbering.use potential).potentials := by
  unfold use
  split
  · exact List.prefix_refl _
  · exact List.prefix_append _ _

theorem useAll_append (numbering : Numbering) (potentials others : List SlotId) :
    numbering.useAll (potentials ++ others) = (numbering.useAll potentials).useAll others :=
  List.foldl_append

@[simp] theorem useAll_size (numbering : Numbering) (potentials : List SlotId) :
    (numbering.useAll potentials).size = numbering.size := by
  induction potentials generalizing numbering with
  | nil => rfl
  | cons p rest ih => exact (ih (numbering.use p)).trans (use_size numbering p)

@[simp] theorem useAll_matrix (numbering : Numbering) (potentials : List SlotId) :
    (numbering.useAll potentials).matrix = numbering.matrix := by
  induction potentials generalizing numbering with
  | nil => rfl
  | cons p rest ih => exact (ih (numbering.use p)).trans (use_matrix numbering p)

theorem mem_useAll {numbering : Numbering} {potentials : List SlotId} {p : SlotId} :
    p ∈ (numbering.useAll potentials).potentials ↔ p ∈ numbering.potentials ∨ p ∈ potentials := by
  induction potentials generalizing numbering with
  | nil => simp [useAll]
  | cons q rest ih =>
      have hstep : p ∈ ((numbering.use q).useAll rest).potentials ↔
          p ∈ (numbering.use q).potentials ∨ p ∈ rest := ih
      rw [mem_use, or_assoc] at hstep
      rw [List.mem_cons]
      exact hstep

theorem nodup_useAll {numbering : Numbering} (potentials : List SlotId)
    (h : numbering.potentials.Nodup) : (numbering.useAll potentials).potentials.Nodup := by
  induction potentials generalizing numbering with
  | nil => exact h
  | cons p rest ih => exact ih (nodup_use p h)

theorem prefix_useAll (numbering : Numbering) (potentials : List SlotId) :
    numbering.potentials <+: (numbering.useAll potentials).potentials := by
  induction potentials generalizing numbering with
  | nil => exact List.prefix_refl _
  | cons p rest ih => exact (prefix_use numbering p).trans (ih (numbering.use p))

-- The numbers of all boolean variables of a registry are numbers of 32 bits with a sign.
structure Fits (numbering : Numbering) (registry : Registry) : Prop where
  size_eq : numbering.size = registry.lattice.size
  matrix_eq : numbering.matrix = registry.slots.size * registry.lattice.size
  total_lt : numbering.matrix + numbering.potentials.length < 0x80000000
  nodup : numbering.potentials.Nodup

theorem fits_useAll_ofRegistry {registry : Registry} {potentials : List SlotId}
    (h : registry.slots.size * registry.lattice.size +
      ((ofRegistry registry).useAll potentials).potentials.length < 0x80000000) :
    ((ofRegistry registry).useAll potentials).Fits registry := by
  have hmatrix : ((ofRegistry registry).useAll potentials).matrix =
      registry.slots.size * registry.lattice.size := by
    rw [useAll_matrix]
    exact Nat.mod_eq_of_lt (by omega)
  refine ⟨useAll_size _ _, hmatrix, ?_, nodup_useAll potentials List.nodup_nil⟩
  rw [hmatrix]
  exact h

-- Each potential slot has one variable, however often it is used.
theorem length_potentials_useAll_ofRegistry (registry : Registry) (potentials : List SlotId) :
    ((ofRegistry registry).useAll potentials).potentials.length = potentials.dedup.length := by
  refine List.Perm.length_eq ((List.perm_ext_iff_of_nodup (nodup_useAll potentials List.nodup_nil)
    (List.nodup_dedup potentials)).mpr fun p => ?_)
  rw [mem_useAll, List.mem_dedup]
  exact or_iff_right List.not_mem_nil

theorem row_le {rows size i q : Nat} (hi : i < rows) (hq : q < size) :
    i * size + q + 1 ≤ rows * size := by
  have hrow : (i + 1) * size ≤ rows * size := Nat.mul_le_mul_right size hi
  rw [Nat.add_mul, Nat.one_mul] at hrow
  omega

section Fitting

variable {numbering : Numbering} {registry : Registry} (hfits : numbering.Fits registry)
include hfits

theorem Fits.count_lt : numbering.count < 0x80000000 :=
  hfits.total_lt

-- The rows of all slots lie before the last variable.
theorem Fits.row_le_count {id : SlotId} (hid : id.index < registry.slots.size) :
    id.index * registry.lattice.size + registry.lattice.size ≤ numbering.count := by
  have hrow : (id.index + 1) * registry.lattice.size ≤
      registry.slots.size * registry.lattice.size := Nat.mul_le_mul_right _ hid
  rw [count, hfits.matrix_eq, ← Nat.succ_mul]
  exact Nat.le_add_right_of_le hrow

theorem Fits.literal_eq {id : SlotId} (hid : id.index < registry.slots.size) {q : Qualifier}
    (hq : q < registry.lattice.size) :
    numbering.literal id q = ((id.index * registry.lattice.size + q + 1 : Nat) : Int) := by
  have hrow := row_le hid hq
  have htotal := hfits.total_lt
  rw [hfits.matrix_eq] at htotal
  have hnarrow := Literal.narrow_natCast
    (n := id.index * registry.lattice.size + q + 1) (by omega)
  rw [literal, hfits.size_eq, ← hnarrow]
  push_cast
  rfl

theorem Fits.presence_eq {potential : SlotId} (hp : potential ∈ numbering.potentials) :
    numbering.presence potential =
      ((numbering.matrix + numbering.potentials.idxOf potential + 1 : Nat) : Int) := by
  have hindex := List.idxOf_lt_length_of_mem hp
  have htotal := hfits.total_lt
  have hnarrow := Literal.narrow_natCast
    (n := numbering.matrix + numbering.potentials.idxOf potential + 1) (by omega)
  rw [presence, ← hnarrow]
  push_cast
  rfl

theorem Fits.presence?_eq {potential : SlotId} (hp : potential ∈ numbering.potentials) :
    numbering.presence? potential = .ok (numbering.presence potential) := by
  have hindex := List.idxOf_lt_length_of_mem hp
  have htotal := hfits.total_lt
  exact if_pos (by omega)

theorem Fits.literal_isWithin {id : SlotId} (hid : id.index < registry.slots.size) {q : Qualifier}
    (hq : q < registry.lattice.size) :
    Literal.isWithin numbering.count (numbering.literal id q) = true := by
  have hrow := row_le hid hq
  rw [hfits.literal_eq hid hq, count, hfits.matrix_eq]
  exact Literal.isWithin_natCast (Nat.succ_pos _) (Nat.le_add_right_of_le hrow)

theorem Fits.presence_isWithin {potential : SlotId} (hp : potential ∈ numbering.potentials) :
    Literal.isWithin numbering.count (numbering.presence potential) = true := by
  have hindex := List.idxOf_lt_length_of_mem hp
  rw [hfits.presence_eq hp, count]
  exact Literal.isWithin_natCast (Nat.succ_pos _) (by omega)

end Fitting

-- The valuation of an interpretation: a variable of the matrix says that its slot takes its
-- qualifier, and a variable behind the matrix that its potential slot is present.
def assignment (numbering : Numbering) (registry : Registry) (interpretation : Interpretation) :
    Valuation := fun number =>
  match decode? registry number with
  | some (id, q) => interpretation.choice id == q
  | none => (numbering.potentials[number - numbering.matrix - 1]?).any interpretation.present

structure Reads (numbering : Numbering) (registry : Registry) (interpretation : Interpretation)
    (valuation : Valuation) : Prop where
  literal_holds : ∀ id ∈ registry.variableSlots, ∀ q < registry.lattice.size,
    Literal.holds valuation (numbering.literal id q) = (interpretation.choice id == q)
  presence_holds : ∀ p ∈ numbering.potentials,
    Literal.holds valuation (numbering.presence p) = interpretation.present p

-- The same for literals that have a negation, which zero has not.
structure Mirrors (numbering : Numbering) (registry : Registry) (interpretation : Interpretation)
    (valuation : Valuation) : Prop extends numbering.Reads registry interpretation valuation where
  literal_ne_zero : ∀ id ∈ registry.variableSlots, ∀ q < registry.lattice.size,
    numbering.literal id q ≠ 0
  presence_ne_zero : ∀ p ∈ numbering.potentials, numbering.presence p ≠ 0

theorem decode?_row {registry : Registry} {id : SlotId} (hid : id.index < registry.slots.size)
    {q : Qualifier} (hq : q < registry.lattice.size) :
    decode? registry (id.index * registry.lattice.size + q + 1) = some (id, q) := by
  have hrow := row_le hid hq
  have hinside : ¬registry.slots.size * registry.lattice.size ≤
      id.index * registry.lattice.size + q := by omega
  have hdiv : (id.index * registry.lattice.size + q) / registry.lattice.size = id.index := by
    rw [Nat.add_comm, Nat.add_mul_div_right _ _ (Nat.zero_lt_of_lt hq), Nat.div_eq_of_lt hq,
      Nat.zero_add]
  have hmod : (id.index * registry.lattice.size + q) % registry.lattice.size = q := by
    rw [Nat.add_comm, Nat.add_mul_mod_self_right, Nat.mod_eq_of_lt hq]
  simp [decode?, hinside, hdiv, hmod, SlotId.ofIndex?, id.index_lt]

theorem decode?_behind {registry : Registry} {number : Nat}
    (h : registry.slots.size * registry.lattice.size < number) : decode? registry number = none := by
  have hbehind : registry.slots.size * registry.lattice.size ≤ number - 1 := by omega
  simp [decode?, hbehind]

-- A variable of the matrix is read back from its row and column, one behind it from its place
-- among the potentials.
theorem reads_assignment {numbering : Numbering} {registry : Registry}
    (hfits : numbering.Fits registry) (hwf : registry.WellFormed)
    (interpretation : Interpretation) :
    numbering.Reads registry interpretation (numbering.assignment registry interpretation) where
  literal_holds id hid q hq := by
    have hindex := hwf.index_lt hid
    rw [hfits.literal_eq hindex hq, Literal.holds_natCast _ (Nat.succ_pos _), assignment,
      decode?_row hindex hq]
  presence_holds p hp := by
    have hbehind : registry.slots.size * registry.lattice.size <
        numbering.matrix + numbering.potentials.idxOf p + 1 := by
      rw [hfits.matrix_eq]
      omega
    have hposition : numbering.matrix + numbering.potentials.idxOf p + 1 - numbering.matrix - 1 =
        numbering.potentials.idxOf p := by omega
    rw [hfits.presence_eq hp, Literal.holds_natCast _ (Nat.succ_pos _), assignment,
      decode?_behind hbehind]
    simp only [hposition, List.getElem?_idxOf hp, Option.any_some]

-- Only the values of the variables that are in use matter.
theorem Reads.congr {numbering : Numbering} {registry : Registry}
    {interpretation : Interpretation} {valuation other : Valuation}
    (h : numbering.Reads registry interpretation valuation) (hfits : numbering.Fits registry)
    (hwf : registry.WellFormed) (hsame : ∀ n ≤ numbering.count, other n = valuation n) :
    numbering.Reads registry interpretation other := by
  constructor
  · intro id hid q hq
    rw [Literal.holds_of_isWithin hsame (hfits.literal_isWithin (hwf.index_lt hid) hq)]
    exact h.literal_holds id hid q hq
  · intro p hp
    rw [Literal.holds_of_isWithin hsame (hfits.presence_isWithin hp)]
    exact h.presence_holds p hp

end Numbering

end Qualify
