import Qualify.Constraint.Build
import Qualify.Constraint.Visit
import Qualify.Proofs.Constraint.Route

namespace Qualify

namespace Constraint

theorem slotOf_eq_ok {registry : Registry} {id : SlotId} {slot : Slot} :
    slotOf registry id = .ok slot ↔ registry.get? id = some slot :=
  Except.mapError_eq_ok.trans Registry.slot_eq_ok

theorem variableOf_eq_ok {registry : Registry} {id : SlotId} {slot : Slot} :
    variableOf registry id = .ok slot ↔ registry.get? id = some slot ∧ slot.constant? = none :=
  Except.mapError_eq_ok.trans Registry.requireVariable_eq_ok

section Cases

variable {registry : Registry} {location : Location} {c : Constraint}

-- Two constants decide a relation, and so do equal slots and some single constants.
theorem relate_steps {kind : Relation} {first second : SlotId}
    (h : relate registry kind first second location = .ok c) :
    ∃ a b, registry.get? first = some a ∧ registry.get? second = some b ∧
      ((∃ p q, a.constant? = some p ∧ b.constant? = some q ∧
          c = ofBool (kind.holds registry.lattice p q)) ∨
        (first = second ∧ c = ofBool (kind != .inequality)) ∨
        (holdsTrivially registry.lattice kind a.constant? b.constant? = true ∧ c = alwaysTrue) ∨
        ((a.constant? = none ∨ b.constant? = none) ∧ first ≠ second ∧
          c = relation kind first second location)) := by
  obtain ⟨a, ha, h⟩ := Except.bind_eq_ok.mp h
  obtain ⟨b, hb, h⟩ := Except.bind_eq_ok.mp h
  refine ⟨a, b, slotOf_eq_ok.mp ha, slotOf_eq_ok.mp hb, ?_⟩
  dsimp only at h
  split at h
  · rename_i p q hp hq
    cases h
    exact .inl ⟨p, q, hp, hq, rfl⟩
  · rename_i hboth
    have hvariable : a.constant? = none ∨ b.constant? = none := by
      cases hp : a.constant? with
      | none => exact .inl rfl
      | some p => exact .inr (Option.eq_none_iff_forall_ne_some.mpr fun q hq => hboth p q hp hq)
    split at h
    · rename_i heq
      cases h
      exact .inr (.inl ⟨heq, rfl⟩)
    · rename_i hne
      split at h
      · rename_i htrivial
        cases h
        exact .inr (.inr (.inl ⟨htrivial, rfl⟩))
      · cases h
        exact .inr (.inr (.inr ⟨hvariable, hne, rfl⟩))

-- A relation that is left to be solved has a variable on one side.
theorem relate_cases {kind : Relation} {first second : SlotId}
    (h : relate registry kind first second location = .ok c) :
    (∃ value, c = ofBool value) ∨
      (c = relation kind first second location ∧ ∃ a b, registry.get? first = some a ∧
        registry.get? second = some b ∧ (a.constant? = none ∨ b.constant? = none)) := by
  obtain ⟨a, b, ha, hb, hsteps⟩ := relate_steps h
  rcases hsteps with ⟨p, q, -, -, rfl⟩ | ⟨-, rfl⟩ | ⟨-, rfl⟩ | ⟨hvariable, -, rfl⟩
  · exact .inl ⟨_, rfl⟩
  · exact .inl ⟨_, rfl⟩
  · exact .inl ⟨true, rfl⟩
  · exact .inr ⟨rfl, a, b, ha, hb, hvariable⟩

-- A function of three constants is decided at once; a constant result with a variable operand is
-- refused.
theorem compute_steps {table : TableFunction} {left right result : SlotId}
    (h : compute registry table left right result location = .ok c) :
    ∃ a b r, registry.get? left = some a ∧ registry.get? right = some b ∧
      registry.get? result = some r ∧
      ((∃ p q s, a.constant? = some p ∧ b.constant? = some q ∧ r.constant? = some s ∧
          c = ofBool (table.apply registry.lattice p q == s)) ∨
        (r.constant? = none ∧ c = function table left right result location)) := by
  obtain ⟨a, ha, h⟩ := Except.bind_eq_ok.mp h
  obtain ⟨b, hb, h⟩ := Except.bind_eq_ok.mp h
  obtain ⟨r, hr, h⟩ := Except.bind_eq_ok.mp h
  refine ⟨a, b, r, slotOf_eq_ok.mp ha, slotOf_eq_ok.mp hb, slotOf_eq_ok.mp hr, ?_⟩
  dsimp only at h
  split at h
  · rename_i p q s hp hq hs
    cases h
    exact .inl ⟨p, q, s, hp, hq, hs, rfl⟩
  · cases h
  · rename_i hvariable
    cases h
    exact .inr ⟨hvariable, rfl⟩

theorem compute_cases {table : TableFunction} {left right result : SlotId}
    (h : compute registry table left right result location = .ok c) :
    (∃ value, c = ofBool value) ∨
      (c = function table left right result location ∧ ∃ a b r, registry.get? left = some a ∧
        registry.get? right = some b ∧ registry.get? result = some r ∧ r.constant? = none) := by
  obtain ⟨a, b, r, ha, hb, hr, ⟨p, q, s, -, -, -, rfl⟩ | ⟨hvariable, rfl⟩⟩ := compute_steps h
  · exact .inl ⟨_, rfl⟩
  · exact .inr ⟨rfl, a, b, r, ha, hb, hr, hvariable⟩

theorem prefer_cases {subject goal : SlotId} {weight : Nat}
    (h : prefer registry subject goal weight = .ok c) :
    ∃ slot constant q, c = preference subject goal q weight slot.location ∧
      registry.get? subject = some slot ∧ slot.constant? = none ∧
      registry.get? goal = some constant ∧ constant.constant? = some q := by
  obtain ⟨slot, hslot, h⟩ := Except.bind_eq_ok.mp h
  obtain ⟨constant, hconstant, h⟩ := Except.bind_eq_ok.mp h
  obtain ⟨hget, hvariable⟩ := variableOf_eq_ok.mp hslot
  split at h
  · rename_i q hq
    cases h
    exact ⟨slot, constant, q, rfl, hget, hvariable, slotOf_eq_ok.mp hconstant, hq⟩
  · cases h

theorem rejectSoft_eq_ok {compound : String} {parts : List Constraint} {done : Unit}
    (h : rejectSoft compound parts = .ok done) : ∀ part ∈ parts, part.isSoft = false := by
  unfold rejectSoft at h
  split at h
  · cases h
  · rename_i hany
    simpa using hany

-- Parts that always hold are dropped before anything else is decided.
theorem branch_steps {potential : SlotId} {present absent : List Constraint}
    (h : branch registry potential present absent = .ok c) :
    (∀ part ∈ present ++ absent, part.isSoft = false) ∧
      ((present.filter (fun c => !c.isAlwaysTrue) = [] ∧
          absent.filter (fun c => !c.isAlwaysTrue) = [] ∧ c = alwaysTrue) ∨
        (¬(present.filter (fun c => !c.isAlwaysTrue) = [] ∧
            absent.filter (fun c => !c.isAlwaysTrue) = []) ∧
          ∃ slot : Slot, c = existential potential (present.filter fun c => !c.isAlwaysTrue)
            (absent.filter fun c => !c.isAlwaysTrue) slot.location)) := by
  obtain ⟨slot, -, h⟩ := Except.bind_eq_ok.mp h
  obtain ⟨done, hdone, h⟩ := Except.bind_eq_ok.mp h
  refine ⟨rejectSoft_eq_ok hdone, ?_⟩
  dsimp only at h
  split at h
  · rename_i hempty
    rw [Bool.and_eq_true, List.isEmpty_iff, List.isEmpty_iff] at hempty
    cases h
    exact .inl ⟨hempty.1, hempty.2, rfl⟩
  · rename_i hsome
    rw [Bool.and_eq_true, List.isEmpty_iff, List.isEmpty_iff] at hsome
    cases h
    exact .inr ⟨hsome, slot, rfl⟩

theorem branch_cases {potential : SlotId} {present absent : List Constraint}
    (h : branch registry potential present absent = .ok c) :
    (∀ part ∈ present ++ absent, part.isSoft = false) ∧
      (c = alwaysTrue ∨ ∃ slot : Slot,
        c = existential potential (present.filter fun c => !c.isAlwaysTrue)
          (absent.filter fun c => !c.isAlwaysTrue) slot.location) := by
  obtain ⟨hparts, hsteps⟩ := branch_steps h
  exact ⟨hparts, hsteps.imp (fun hempty => hempty.2.2) fun hsome => hsome.2⟩

-- A false assumption, no assumption and a true conclusion make an implication superfluous.
theorem imply_steps {assumptions : List Constraint} {conclusion : Constraint}
    (h : imply assumptions conclusion location = .ok c) :
    (∀ part ∈ assumptions ++ [conclusion], part.isSoft = false) ∧
      ((c = alwaysTrue ∧ ∃ part ∈ assumptions, part.isAlwaysFalse = true) ∨
        (assumptions.filter (fun c => !c.isAlwaysTrue) = [] ∧ c = conclusion) ∨
        (conclusion.isAlwaysTrue = true ∧ c = alwaysTrue) ∨
        ((∀ part ∈ assumptions, part.isAlwaysFalse = false) ∧
          assumptions.filter (fun c => !c.isAlwaysTrue) ≠ [] ∧ conclusion.isAlwaysTrue = false ∧
          c = implication (assumptions.filter fun c => !c.isAlwaysTrue) conclusion location)) := by
  obtain ⟨done, hdone, h⟩ := Except.bind_eq_ok.mp h
  refine ⟨rejectSoft_eq_ok hdone, ?_⟩
  dsimp only at h
  split at h
  · rename_i hfalse
    cases h
    exact .inl ⟨rfl, List.any_eq_true.mp hfalse⟩
  · rename_i hfalse
    split at h
    · rename_i hnone
      cases h
      exact .inr (.inl ⟨List.isEmpty_iff.mp hnone, rfl⟩)
    · rename_i hsome
      split at h
      · rename_i htrue
        cases h
        exact .inr (.inr (.inl ⟨htrue, rfl⟩))
      · rename_i htrue
        cases h
        exact .inr (.inr (.inr ⟨by simpa using hfalse, by simpa using hsome,
          Bool.not_eq_true _ ▸ htrue, rfl⟩))

theorem imply_cases {assumptions : List Constraint} {conclusion : Constraint}
    (h : imply assumptions conclusion location = .ok c) :
    (∀ part ∈ assumptions ++ [conclusion], part.isSoft = false) ∧
      (c = alwaysTrue ∨ c = conclusion ∨
        c = implication (assumptions.filter fun c => !c.isAlwaysTrue) conclusion location) := by
  obtain ⟨hparts, ⟨rfl, -⟩ | ⟨-, rfl⟩ | ⟨-, rfl⟩ | ⟨-, -, -, rfl⟩⟩ := imply_steps h
  · exact ⟨hparts, .inl rfl⟩
  · exact ⟨hparts, .inr (.inl rfl)⟩
  · exact ⟨hparts, .inl rfl⟩
  · exact ⟨hparts, .inr (.inr rfl)⟩

end Cases

-- The constraints that can be made for a registry. It may have had less slots at the time.
inductive Built (registry : Registry) : Constraint → Prop
  | alwaysTrue : Built registry .alwaysTrue
  | alwaysFalse : Built registry .alwaysFalse
  | relate {earlier : Registry} (hearlier : earlier.Reaches registry) {kind : Relation}
      {first second : SlotId} {location : Location} {c : Constraint}
      (h : relate earlier kind first second location = .ok c) : Built registry c
  | compute {earlier : Registry} (hearlier : earlier.Reaches registry) {table : TableFunction}
      {left right result : SlotId} {location : Location} {c : Constraint}
      (h : compute earlier table left right result location = .ok c) : Built registry c
  | computeAtResult {earlier : Registry} (hearlier : earlier.Reaches registry)
      {table : TableFunction} {left right result : SlotId} {c : Constraint}
      (h : computeAtResult earlier table left right result = .ok c) : Built registry c
  | prefer {earlier : Registry} (hearlier : earlier.Reaches registry) {subject goal : SlotId}
      {weight : Nat} {c : Constraint} (h : prefer earlier subject goal weight = .ok c) :
      Built registry c
  | branch {earlier : Registry} (hearlier : earlier.Reaches registry) {potential : SlotId}
      {present absent : List Constraint} {c : Constraint}
      (hpresent : ∀ part ∈ present, Built registry part)
      (habsent : ∀ part ∈ absent, Built registry part)
      (h : branch earlier potential present absent = .ok c) : Built registry c
  | imply {assumptions : List Constraint} {conclusion : Constraint} {location : Location}
      {c : Constraint} (hassumptions : ∀ part ∈ assumptions, Built registry part)
      (hconclusion : Built registry conclusion)
      (h : imply assumptions conclusion location = .ok c) : Built registry c

section Built

variable {registry : Registry} {c : Constraint}

theorem ofBool_succeeds (value : Bool) :
    ∀ visit ∈ (ofBool value).visits, visit.succeeds registry = true := by
  cases value <;> simp [ofBool, visits, Visit.succeeds, isEncodable]

theorem filter_succeeds {parts : List Constraint}
    (hsoft : ∀ part ∈ parts, part.isSoft = false)
    (h : ∀ part ∈ parts, part.isSoft = false →
      ∀ visit ∈ part.visits, visit.succeeds registry = true) :
    ∀ visit ∈ visitsOfAll (parts.filter fun c => !c.isAlwaysTrue),
      visit.succeeds registry = true := by
  rw [visitsOfAll_eq, List.forall_mem_flatMap]
  intro part hpart
  have hmem := (List.mem_filter.mp hpart).1
  exact h part hmem (hsoft part hmem)

-- Known slots stay what they are, so that what could be made can still be encoded.
theorem computed_succeeds {earlier : Registry} (hearlier : earlier.Reaches registry)
    {table : TableFunction} {left right result : SlotId} {location : Location}
    (h : Constraint.compute earlier table left right result location = .ok c) :
    ∀ visit ∈ c.visits, visit.succeeds registry = true := by
  have hget := hearlier.grows.get?_eq
  rcases compute_cases h with ⟨value, rfl⟩ | ⟨rfl, a, b, r, ha, hb, hr, hvariable⟩
  · exact ofBool_succeeds value
  · exact List.forall_mem_singleton.mpr (Registry.functionRoute_isOk table location (hget _ a ha)
      (hget _ b hb) (hget _ r hr) hvariable)

-- By induction on how the constraint was built. The slots were looked up in an earlier registry,
-- which the present one has only grown from.
theorem Built.succeeds (h : Built registry c) (hsoft : c.isSoft = false) :
    ∀ visit ∈ c.visits, visit.succeeds registry = true := by
  induction h with
  | alwaysTrue => exact ofBool_succeeds true
  | alwaysFalse => exact ofBool_succeeds false
  | relate hearlier h =>
      rcases relate_cases h with ⟨value, rfl⟩ | ⟨rfl, a, b, ha, hb, hvariable⟩
      · exact ofBool_succeeds value
      · have hget := hearlier.grows.get?_eq
        exact List.forall_mem_singleton.mpr
          (Registry.relationRoute_isOk _ _ (hget _ a ha) (hget _ b hb) hvariable)
  | compute hearlier h => exact computed_succeeds hearlier h
  | computeAtResult hearlier h =>
      obtain ⟨slot, -, h⟩ := Except.bind_eq_ok.mp h
      exact computed_succeeds hearlier h
  | prefer hearlier h =>
      obtain ⟨slot, constant, q, rfl, -⟩ := prefer_cases h
      cases hsoft
  | branch hearlier hpresent habsent h ihpresent ihabsent =>
      obtain ⟨hparts, rfl | ⟨slot, rfl⟩⟩ := branch_cases h
      · exact ofBool_succeeds true
      · obtain ⟨hp, ha⟩ := List.forall_mem_append.mp hparts
        rw [visits, List.forall_mem_cons, List.forall_mem_append]
        exact ⟨rfl, filter_succeeds hp ihpresent, filter_succeeds ha ihabsent⟩
  | imply hassumptions hconclusion h ihassumptions ihconclusion =>
      obtain ⟨hparts, rfl | rfl | rfl⟩ := imply_cases h
      · exact ofBool_succeeds true
      · exact ihconclusion hsoft
      · obtain ⟨ha, hc⟩ := List.forall_mem_append.mp hparts
        rw [visits, List.forall_mem_append]
        exact ⟨filter_succeeds ha ihassumptions, ihconclusion (hc _ List.mem_cons_self)⟩

-- Only `prefer` makes a soft constraint: the other constructors refuse soft parts.
theorem Built.soft_cases (h : Built registry c) (hwf : registry.WellFormed)
    (hsoft : c.isSoft = true) :
    ∃ subject goal q weight location, c = preference subject goal q weight location ∧
      subject ∈ registry.variableSlots ∧ q < registry.lattice.size := by
  have hofBool : ∀ value, (ofBool value).isSoft = false := by decide
  cases h with
  | alwaysTrue => cases hsoft
  | alwaysFalse => cases hsoft
  | relate hearlier h =>
      rcases relate_cases h with ⟨value, rfl⟩ | ⟨rfl, -⟩
      · simp [hofBool] at hsoft
      · cases hsoft
  | compute hearlier h =>
      rcases compute_cases h with ⟨value, rfl⟩ | ⟨rfl, -⟩
      · simp [hofBool] at hsoft
      · cases hsoft
  | computeAtResult hearlier h =>
      obtain ⟨slot, -, h⟩ := Except.bind_eq_ok.mp h
      rcases compute_cases h with ⟨value, rfl⟩ | ⟨rfl, -⟩
      · simp [hofBool] at hsoft
      · cases hsoft
  | prefer hearlier h =>
      have hget := hearlier.grows.get?_eq
      obtain ⟨slot, constant, q, rfl, hslot, hvariable, hconstant, hq⟩ := prefer_cases h
      exact ⟨_, _, q, _, _, rfl, (hwf.mem_variableSlots (hget _ slot hslot)).mpr hvariable,
        hwf.constant_lt _ constant q (hget _ constant hconstant) hq⟩
  | branch hearlier hpresent habsent h =>
      obtain ⟨-, rfl | ⟨slot, rfl⟩⟩ := branch_cases h <;> cases hsoft
  | imply hassumptions hconclusion h =>
      obtain ⟨hparts, rfl | rfl | rfl⟩ := imply_cases h
      · cases hsoft
      · simp [hparts c (by simp)] at hsoft
      · cases hsoft

end Built

end Constraint

end Qualify
