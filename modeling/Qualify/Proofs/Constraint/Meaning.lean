import Qualify.Constraint.Visit
import Qualify.Proofs.Slot.Growth

namespace Qualify

-- Induction over a constraint and all its parts.
@[elab_as_elim, induction_eliminator]
theorem Constraint.induction {motive : Constraint → Prop}
    (alwaysTrue : motive .alwaysTrue) (alwaysFalse : motive .alwaysFalse)
    (relation : ∀ kind first second location, motive (.relation kind first second location))
    (function : ∀ table left right result location,
      motive (.function table left right result location))
    (preference : ∀ subject goal q weight location,
      motive (.preference subject goal q weight location))
    (existential : ∀ potential present absent location, (∀ c ∈ present, motive c) →
      (∀ c ∈ absent, motive c) → motive (.existential potential present absent location))
    (implication : ∀ assumptions conclusion location, (∀ c ∈ assumptions, motive c) →
      motive conclusion → motive (.implication assumptions conclusion location))
    (c : Constraint) : motive c := by
  refine @Constraint.rec motive (fun parts => ∀ c ∈ parts, motive c) alwaysTrue alwaysFalse
    relation function preference existential implication ?_ ?_ c
  · intro c hc
    cases hc
  · intro first rest hfirst hrest
    exact List.forall_mem_cons.mpr ⟨hfirst, hrest⟩

theorem Constraint.visitsOfAll_eq (constraints : List Constraint) :
    visitsOfAll constraints = constraints.flatMap visits := by
  induction constraints with
  | nil => rfl
  | cons c rest ih => rw [visitsOfAll, ih, List.flatMap_cons]

theorem Constraint.visits_subset_visitsOfAll {constraints : List Constraint} {c : Constraint}
    (h : c ∈ constraints) : c.visits ⊆ visitsOfAll constraints := by
  intro visit hvisit
  rw [visitsOfAll_eq]
  exact List.mem_flatMap.mpr ⟨c, h, hvisit⟩

theorem Constraint.slotsOfAll_eq (constraints : List Constraint) :
    slotsOfAll constraints = constraints.flatMap slots := by
  induction constraints with
  | nil => rfl
  | cons c rest ih => rw [slotsOfAll, ih, List.flatMap_cons]

theorem Constraint.slots_subset_slotsOfAll {constraints : List Constraint} {c : Constraint}
    (h : c ∈ constraints) : c.slots ⊆ slotsOfAll constraints := by
  intro id hid
  rw [slotsOfAll_eq]
  exact List.mem_flatMap.mpr ⟨c, h, hid⟩

-- A qualifier for every slot, of which only those of the variables matter, and for every slot
-- whether it is present.
structure Interpretation where
  choice : SlotId → Qualifier
  present : SlotId → Bool

namespace Interpretation

def InRange (interpretation : Interpretation) (registry : Registry) : Prop :=
  ∀ id ∈ registry.variableSlots, interpretation.choice id < registry.lattice.size

instance (interpretation : Interpretation) (registry : Registry) :
    Decidable (interpretation.InRange registry) :=
  inferInstanceAs (Decidable (∀ id ∈ registry.variableSlots, _ < registry.lattice.size))

variable (interpretation : Interpretation) (registry : Registry)

def value (id : SlotId) : Qualifier :=
  ((registry.get? id).bind Slot.constant?).getD (interpretation.choice id)

mutual

-- What a constraint means. The potential slot decides which branch of an existential constraint
-- counts, and a preference requires nothing.
def eval : Constraint → Bool
  | .alwaysTrue => true
  | .alwaysFalse => false
  | .relation kind first second _ =>
      kind.holds registry.lattice (value interpretation registry first)
        (value interpretation registry second)
  | .function table left right result _ =>
      value interpretation registry result ==
        table.apply registry.lattice (value interpretation registry left)
          (value interpretation registry right)
  | .preference .. => true
  | .existential potential present absent _ =>
      if interpretation.present potential then evalAll present else evalAll absent
  | .implication assumptions conclusion _ => !evalAll assumptions || eval conclusion

def evalAll : List Constraint → Bool
  | [] => true
  | c :: rest => eval c && evalAll rest

end

theorem evalAll_iff (constraints : List Constraint) :
    interpretation.evalAll registry constraints = true ↔
      ∀ c ∈ constraints, interpretation.eval registry c = true := by
  induction constraints with
  | nil => simp [evalAll]
  | cons c rest ih => simp [evalAll, ih]

end Interpretation

namespace Registry

-- A slot is a constant of the lattice, or it is one of those to be solved for.
theorem WellFormed.mem_variableSlots {registry : Registry} (hwf : registry.WellFormed)
    {id : SlotId} {slot : Slot} (hget : registry.get? id = some slot) :
    id ∈ registry.variableSlots ↔ slot.constant? = none := by
  have hmem : ∀ other : Slot, other ∈ registry.slots.toList ∧ other.id = id ↔ other = slot := by
    intro other
    constructor
    · rintro ⟨hother, rfl⟩
      obtain ⟨i, hi⟩ := Array.getElem?_of_mem (Array.mem_toList_iff.mp hother)
      have hindex := hwf.index_eq i other hi
      rw [get?, hindex, hi] at hget
      exact Option.some.inj hget
    · rintro rfl
      exact ⟨Array.mem_toList_iff.mpr (Array.mem_of_getElem? hget),
        SlotId.eq_of_index (hwf.index_eq id.index other hget)⟩
  unfold variableSlots
  simp only [List.mem_map, List.mem_filter, Slot.isVariable, Slot.isConstant]
  constructor
  · rintro ⟨other, ⟨hother, hvariable⟩, hid⟩
    obtain rfl := (hmem other).mp ⟨hother, hid⟩
    simpa using hvariable
  · intro hconstant
    obtain ⟨hslot, hid⟩ := (hmem slot).mpr rfl
    exact ⟨slot, ⟨hslot, by simp [hconstant]⟩, hid⟩

theorem WellFormed.get?_of_mem {registry : Registry} (hwf : registry.WellFormed) {id : SlotId}
    (hid : id ∈ registry.variableSlots) :
    ∃ slot, registry.get? id = some slot ∧ slot.constant? = none := by
  obtain ⟨slot, hslot, rfl⟩ := List.mem_map.mp hid
  obtain ⟨hmem, -⟩ := List.mem_filter.mp hslot
  obtain ⟨i, hi⟩ := Array.getElem?_of_mem (Array.mem_toList_iff.mp hmem)
  have hget : registry.get? slot.id = some slot := by
    rw [get?, hwf.index_eq i slot hi, hi]
  exact ⟨slot, hget, (hwf.mem_variableSlots hget).mp hid⟩

theorem WellFormed.index_lt {registry : Registry} (hwf : registry.WellFormed) {id : SlotId}
    (hid : id ∈ registry.variableSlots) : id.index < registry.slots.size := by
  obtain ⟨slot, hget, -⟩ := hwf.get?_of_mem hid
  exact (Array.getElem?_eq_some_iff.mp hget).1

end Registry

end Qualify
