import Qualify.Constraint.Route
import Qualify.Proofs.Constraint.Meaning

namespace Qualify

def RelationRoute.swap : RelationRoute → RelationRoute
  | constantVariable q id => variableConstant id q
  | variableConstant id q => constantVariable q id
  | variableVariable first second => variableVariable second first

@[simp] theorem RelationRoute.swap_swap (route : RelationRoute) : route.swap.swap = route := by
  cases route <;> rfl

namespace Registry

theorem operand_of_get? {registry : Registry} {id : SlotId} {slot : Slot}
    (h : registry.get? id = some slot) :
    registry.operand id = .ok (slot.constant?.elim (.slot id) .constant) := by
  have hslot : (registry.slot id).mapError Inconsistency.slot = .ok slot :=
    Except.mapError_eq_ok.mpr (slot_eq_ok.mpr h)
  unfold operand
  rw [Except.bind_eq_ok]
  refine ⟨slot, hslot, ?_⟩
  cases slot.constant? <;> rfl

theorem relationRoute_isOk {registry : Registry} (kind : Relation) {first second : SlotId}
    (location : Location) {a b : Slot} (ha : registry.get? first = some a)
    (hb : registry.get? second = some b) (h : a.constant? = none ∨ b.constant? = none) :
    (registry.relationRoute kind first second location).isOk = true := by
  rw [relationRoute, operand_of_get? ha, operand_of_get? hb]
  rcases h with h | h
  · rw [h]
    cases b.constant? <;> rfl
  · rw [h]
    cases a.constant? <;> rfl

theorem functionRoute_isOk {registry : Registry} (table : TableFunction)
    {left right result : SlotId} (location : Location) {a b r : Slot}
    (ha : registry.get? left = some a) (hb : registry.get? right = some b)
    (hr : registry.get? result = some r) (h : r.constant? = none) :
    (registry.functionRoute table left right result location).isOk = true := by
  rw [functionRoute, operand_of_get? hr, operand_of_get? ha,
    operand_of_get? hb, h]
  rfl

theorem WellFormed.operand_cases {registry : Registry} (hwf : registry.WellFormed) {id : SlotId}
    {operand : Operand} (h : registry.operand id = .ok operand) :
    (∃ q, operand = .constant q ∧ q < registry.lattice.size ∧
        (registry.get? id).bind Slot.constant? = some q) ∨
      (operand = .slot id ∧ id ∈ registry.variableSlots ∧
        (registry.get? id).bind Slot.constant? = none) := by
  obtain ⟨slot, hslot, h⟩ := Except.bind_eq_ok.mp h
  have hget := slot_eq_ok.mp (Except.mapError_eq_ok.mp hslot)
  cases hconstant : slot.constant? with
  | some q =>
      rw [hconstant] at h
      cases h
      exact .inl ⟨q, rfl, hwf.constant_lt _ slot q hget hconstant, by rw [hget]; exact hconstant⟩
  | none =>
      rw [hconstant] at h
      cases h
      exact .inr ⟨rfl, (hwf.mem_variableSlots hget).mpr hconstant, by rw [hget]; exact hconstant⟩

theorem WellFormed.constant_operand_lt {registry : Registry} (hwf : registry.WellFormed)
    {id : SlotId} {q : Qualifier} (h : registry.operand id = .ok (.constant q)) :
    q < registry.lattice.size := by
  rcases hwf.operand_cases h with ⟨_, heq, hlt, -⟩ | ⟨heq, -⟩
  · cases heq
    exact hlt
  · cases heq

theorem WellFormed.slot_operand {registry : Registry} (hwf : registry.WellFormed)
    {id v : SlotId} (h : registry.operand id = .ok (.slot v)) :
    v = id ∧ v ∈ registry.variableSlots := by
  rcases hwf.operand_cases h with ⟨_, heq, -⟩ | ⟨heq, hid, -⟩
  · cases heq
  · cases heq
    exact ⟨rfl, hid⟩

-- Two constants have no route: such a relation is decided when it is built.
theorem relationRoute_cases {registry : Registry} {kind : Relation} {first second : SlotId}
    {location : Location} {route : RelationRoute}
    (h : registry.relationRoute kind first second location = .ok route) :
    ∃ a b, registry.operand first = .ok a ∧ registry.operand second = .ok b ∧
      ((∃ q id, a = .constant q ∧ b = .slot id ∧ route = .constantVariable q id) ∨
        (∃ id q, a = .slot id ∧ b = .constant q ∧ route = .variableConstant id q) ∨
        ∃ v w, a = .slot v ∧ b = .slot w ∧ route = .variableVariable v w) := by
  obtain ⟨a, ha, h⟩ := Except.bind_eq_ok.mp h
  obtain ⟨b, hb, h⟩ := Except.bind_eq_ok.mp h
  refine ⟨a, b, ha, hb, ?_⟩
  cases a with
  | constant p =>
      cases b with
      | constant q => cases h
      | slot w =>
          cases h
          exact .inl ⟨p, w, rfl, rfl, rfl⟩
  | slot v =>
      cases b with
      | constant q =>
          cases h
          exact .inr (.inl ⟨v, q, rfl, rfl, rfl⟩)
      | slot w =>
          cases h
          exact .inr (.inr ⟨v, w, rfl, rfl, rfl⟩)

theorem functionRoute_cases {registry : Registry} {table : TableFunction}
    {left right result : SlotId} {location : Location} {operands : Operand × Operand}
    (h : registry.functionRoute table left right result location = .ok operands) :
    ∃ id, registry.operand result = .ok (.slot id) ∧ registry.operand left = .ok operands.1 ∧
      registry.operand right = .ok operands.2 := by
  obtain ⟨r, hr, h⟩ := Except.bind_eq_ok.mp h
  cases r with
  | constant q => cases h
  | slot id =>
      obtain ⟨a, ha, h⟩ := Except.bind_eq_ok.mp h
      obtain ⟨b, hb, h⟩ := Except.bind_eq_ok.mp h
      cases h
      exact ⟨id, hr, ha, hb⟩

theorem relationRoute_swap {registry : Registry} {kind : Relation} {first second : SlotId}
    {location location' : Location} {route : RelationRoute}
    (h : registry.relationRoute kind first second location = .ok route) :
    registry.relationRoute kind second first location' = .ok route.swap := by
  obtain ⟨a, b, ha, hb, hroute⟩ := relationRoute_cases h
  rw [relationRoute, Except.bind_of_ok hb, Except.bind_of_ok ha]
  rcases hroute with ⟨q, id, rfl, rfl, rfl⟩ | ⟨id, q, rfl, rfl, rfl⟩ | ⟨v, w, rfl, rfl, rfl⟩ <;> rfl

-- The location of a relation or a function is only used in messages.
theorem relationRoute_congr {registry : Registry} {kind : Relation} {first second : SlotId}
    {location location' : Location} {route : RelationRoute}
    (h : registry.relationRoute kind first second location = .ok route) :
    registry.relationRoute kind first second location' = .ok route := by
  have hswap : registry.relationRoute kind second first location = .ok route.swap :=
    relationRoute_swap h
  simpa using relationRoute_swap hswap

theorem functionRoute_congr {registry : Registry} {table : TableFunction}
    {left right result : SlotId} {location location' : Location} {operands : Operand × Operand}
    (h : registry.functionRoute table left right result location = .ok operands) :
    registry.functionRoute table left right result location' = .ok operands := by
  obtain ⟨id, hresult, hleft, hright⟩ := functionRoute_cases h
  rw [functionRoute, Except.bind_of_ok hresult]
  exact (Except.bind_of_ok hleft).trans (Except.bind_of_ok hright)

-- No number is computed on the way, so nothing can be too large.
section Fault

variable {registry : Registry}

theorem operand_ne_fault (id : SlotId) (cause : Fault) :
    registry.operand id ≠ .error (.fault cause) := by
  intro h
  rcases Except.bind_eq_error.mp h with h | ⟨slot, -, h⟩
  · cases hslot : registry.slot id with
    | error e =>
        rw [hslot] at h
        cases h
    | ok slot =>
        rw [hslot] at h
        cases h
  · split at h <;> cases h

theorem relationRoute_ne_fault {kind : Relation} {first second : SlotId}
    {location : Location} (cause : Fault) :
    registry.relationRoute kind first second location ≠ .error (.fault cause) := by
  intro h
  rcases Except.bind_eq_error.mp h with h | ⟨a, -, h⟩
  · exact operand_ne_fault first cause h
  · rcases Except.bind_eq_error.mp h with h | ⟨b, -, h⟩
    · exact operand_ne_fault second cause h
    · split at h <;> cases h

theorem functionRoute_ne_fault {table : TableFunction} {left right result : SlotId}
    {location : Location} (cause : Fault) :
    registry.functionRoute table left right result location ≠ .error (.fault cause) := by
  intro h
  rcases Except.bind_eq_error.mp h with h | ⟨operand, -, h⟩
  · exact operand_ne_fault result cause h
  · split at h
    · cases h
    · rcases Except.bind_eq_error.mp h with h | ⟨a, -, h⟩
      · exact operand_ne_fault left cause h
      · exact operand_ne_fault right cause (Except.bind_return_eq_error.mp h)

end Fault

end Registry

end Qualify
