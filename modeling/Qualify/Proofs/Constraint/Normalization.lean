import Qualify.Proofs.Lattice.Building
import Qualify.Proofs.Solution.Verification

namespace Qualify

theorem Registry.Reachable.ordered {registry : Registry} (h : registry.Reachable) :
    registry.lattice.Ordered := by
  obtain ⟨declaration, lattice, hbuild, hreaches⟩ := h
  rw [hreaches.grows.lattice_eq]
  exact Lattice.build_ordered hbuild

section Decided

variable {lattice : Lattice} (h : lattice.Ordered) {p q : Qualifier} (hp : p < lattice.size)
include h hp

theorem Relation.holds_self (kind : Relation) :
    kind.holds lattice p p = (kind != .inequality) := by
  have hrefl := h.refl p hp
  cases kind <;> simp [Relation.holds, Lattice.isComparable, hrefl]

-- What a single constant decides does not depend on the other side.
theorem Constraint.holds_of_holdsTrivially (hq : q < lattice.size) {kind : Relation}
    {first second : Option Qualifier} (hfirst : ∀ a, first = some a → p = a)
    (hsecond : ∀ b, second = some b → q = b)
    (htrivial : holdsTrivially lattice kind first second = true) :
    kind.holds lattice p q = true := by
  cases kind with
  | equality => cases htrivial
  | inequality => cases htrivial
  | subtype =>
      simp only [holdsTrivially, Bool.or_eq_true, Bool.and_eq_true, beq_iff_eq] at htrivial
      rcases htrivial with ⟨hsome, hbottom⟩ | ⟨hsome, htop⟩
      · obtain ⟨a, ha⟩ := Option.isSome_iff_exists.mp hsome
        rw [hfirst a ha]
        exact (h.bottom?_eq_some_iff.mp (hbottom.symm.trans ha)).2 q hq
      · obtain ⟨b, hb⟩ := Option.isSome_iff_exists.mp hsome
        rw [hsecond b hb]
        exact (h.top?_eq_some_iff.mp (htop.symm.trans hb)).2 p hp
  | comparable =>
      simp only [holdsTrivially, Option.any_eq_true, List.isEmpty_iff] at htrivial
      obtain ⟨a, ha, hnone⟩ := htrivial
      rcases Option.or_eq_some_iff.mp ha with hfound | ⟨-, hfound⟩
      · rw [hfirst a hfound]
        exact Lattice.isComparable_of_incomparable hnone hq
      · rw [Relation.holds, Lattice.isComparable, Bool.or_comm, hsecond a hfound]
        exact Lattice.isComparable_of_incomparable hnone hp

end Decided

namespace Solution

variable {solution other : Solution} {registry : Registry}

def Total (solution : Solution) (registry : Registry) : Prop :=
  ∀ id ∈ registry.variableSlots, ∃ q, solution.get? id = some q ∧ q < registry.lattice.size

-- A constant has its own value and a variable the one the solution gives it, which totality
-- provides.
theorem value_of_get? (hwf : registry.WellFormed) (htotal : solution.Total registry) {id : SlotId}
    {slot : Slot} (hget : registry.get? id = some slot) :
    ∃ q < registry.lattice.size, solution.value registry id = .ok q ∧
      ∀ p, slot.constant? = some p → q = p := by
  have hslot : (registry.slot id).mapError Inconsistency.slot = .ok slot :=
    Except.mapError_eq_ok.mpr (Registry.slot_eq_ok.mpr hget)
  rw [value, Except.bind_of_ok hslot]
  cases hconstant : slot.constant? with
  | some p =>
      refine ⟨p, hwf.constant_lt _ slot p hget hconstant, rfl, ?_⟩
      rintro _ ⟨⟩
      rfl
  | none =>
      obtain ⟨q, hq, hlt⟩ := htotal id ((hwf.mem_variableSlots hget).mpr hconstant)
      have hcontains : registry.lattice.contains q = true := decide_eq_true hlt
      refine ⟨q, hlt, ?_, by simp⟩
      simp only [hq, hcontains, if_true]
      rfl

theorem holdsAll_congr {parts : List Constraint}
    (h : ∀ part ∈ parts, solution.holds registry part = other.holds registry part) :
    solution.holdsAll registry parts = other.holdsAll registry parts := by
  induction parts with
  | nil => rfl
  | cons part rest ih =>
      obtain ⟨hpart, hrest⟩ := List.forall_mem_cons.mp h
      rw [holdsAll, holdsAll, hpart, ih hrest]

-- Whether a constraint holds depends on the values of its slots only.
theorem holds_congr (c : Constraint)
    (h : ∀ id ∈ c.slots, solution.value registry id = other.value registry id) :
    solution.holds registry c = other.holds registry c := by
  have hall : ∀ parts : List Constraint,
      (∀ part ∈ parts, (∀ id ∈ part.slots, solution.value registry id = other.value registry id) →
        solution.holds registry part = other.holds registry part) →
      (∀ id ∈ Constraint.slotsOfAll parts, solution.value registry id = other.value registry id) →
      solution.holdsAll registry parts = other.holdsAll registry parts := by
    intro parts ih hparts
    refine holdsAll_congr fun part hpart => ih part hpart fun id hid => ?_
    exact hparts id (Constraint.slots_subset_slotsOfAll hpart hid)
  induction c with
  | alwaysTrue => rfl
  | alwaysFalse => rfl
  | relation kind first second location =>
      simp only [Constraint.slots, List.forall_mem_cons] at h
      rw [holds, holds, h.1, h.2.1]
  | function table left right result location =>
      simp only [Constraint.slots, List.forall_mem_cons] at h
      rw [holds, holds, h.1, h.2.1, h.2.2.1]
  | preference subject goal q weight location => rfl
  | existential potential present absent location ihpresent ihabsent =>
      rw [Constraint.slots, List.forall_mem_cons, List.forall_mem_append] at h
      rw [holds, holds, hall present ihpresent h.2.1, hall absent ihabsent h.2.2]
  | implication assumptions conclusion location ihassumptions ihconclusion =>
      rw [Constraint.slots, List.forall_mem_append] at h
      rw [holds, holds, hall assumptions ihassumptions h.1, ihconclusion h.2]

theorem holdsAll_filter (parts : List Constraint) :
    solution.holdsAll registry (parts.filter fun c => !c.isAlwaysTrue) =
      solution.holdsAll registry parts := by
  induction parts with
  | nil => rfl
  | cons c rest ih =>
      rw [List.filter_cons]
      split
      · rw [holdsAll, holdsAll, ih]
      · rename_i htrue
        cases c with
        | alwaysTrue => exact ih
        | _ => exact absurd rfl htrue

def interpretation (solution : Solution) : Interpretation where
  choice id := (solution.get? id).getD 0
  present _ := true

theorem choice_interpretation {id : SlotId} {q : Qualifier} (hq : solution.get? id = some q) :
    solution.interpretation.choice id = q := by
  simp [interpretation, hq]

theorem Total.inRange (htotal : solution.Total registry) :
    solution.interpretation.InRange registry := by
  intro id hid
  obtain ⟨q, hq, hlt⟩ := htotal id hid
  rwa [choice_interpretation hq]

-- A total solution and the one rebuilt from its interpretation differ at most on slots that are
-- not variables.
theorem Total.value_eq (hwf : registry.WellFormed) (htotal : solution.Total registry)
    (id : SlotId) : solution.value registry id =
      (solution.interpretation.solution registry).value registry id := by
  cases hget : registry.get? id with
  | none =>
      rw [value, value, Registry.slot, hget]
      rfl
  | some slot =>
      have hslot : (registry.slot id).mapError Inconsistency.slot = .ok slot :=
        Except.mapError_eq_ok.mpr (Registry.slot_eq_ok.mpr hget)
      rw [value, value, Except.bind_of_ok hslot, Except.bind_of_ok hslot]
      cases hconstant : slot.constant? with
      | some q => rfl
      | none =>
          have hid := (hwf.mem_variableSlots hget).mpr hconstant
          obtain ⟨q, hq, -⟩ := htotal id hid
          rw [Interpretation.get?_solution hid, choice_interpretation hq, hq]

theorem Total.holds_isOk (hwf : registry.WellFormed) (htotal : solution.Total registry)
    {c : Constraint} (h : Constraint.Built registry c) (hsoft : c.isSoft = false) :
    ∃ verdict, solution.holds registry c = .ok verdict := by
  rw [holds_congr _ fun id _ => htotal.value_eq hwf id]
  exact Interpretation.holds_isOk hwf htotal.inRange c (h.succeeds hsoft)

end Solution

namespace Constraint

-- What is made of a constraint as it is written.
inductive Normalizes (registry : Registry) : Constraint → Constraint → Prop
  | relate {kind : Relation} {first second : SlotId} {location : Location} {c : Constraint}
      (h : relate registry kind first second location = .ok c) :
      Normalizes registry (.relation kind first second location) c
  | compute {table : TableFunction} {left right result : SlotId} {location : Location}
      {c : Constraint} (h : compute registry table left right result location = .ok c) :
      Normalizes registry (.function table left right result location) c
  | computeAtResult {table : TableFunction} {left right result : SlotId} {location : Location}
      {c : Constraint} (h : computeAtResult registry table left right result = .ok c) :
      Normalizes registry (.function table left right result location) c
  | branch {potential : SlotId} {present absent : List Constraint} {location : Location}
      {c : Constraint} (hpresent : ∀ part ∈ present, Built registry part)
      (habsent : ∀ part ∈ absent, Built registry part)
      (h : branch registry potential present absent = .ok c) :
      Normalizes registry (.existential potential present absent location) c
  | imply {assumptions : List Constraint} {conclusion : Constraint} {location : Location}
      {c : Constraint} (hassumptions : ∀ part ∈ assumptions, Built registry part)
      (hconclusion : Built registry conclusion)
      (h : imply assumptions conclusion location = .ok c) :
      Normalizes registry (.implication assumptions conclusion location) c

section Normalizes

variable {registry : Registry} {solution : Solution} (hwf : registry.WellFormed)
  (htotal : solution.Total registry) {c : Constraint}

theorem holds_ofBool (value : Bool) : solution.holds registry (ofBool value) = .ok value := by
  cases value <;> rfl

include hwf htotal

-- The four outcomes of the factory: two constants, one slot on both sides, a relation that always
-- holds, and the relation itself.
theorem holds_relate (hordered : registry.lattice.Ordered) {kind : Relation}
    {first second : SlotId} {location : Location}
    (h : relate registry kind first second location = .ok c) :
    ∃ verdict, solution.holds registry (.relation kind first second location) = .ok verdict ∧
      solution.holds registry c = .ok verdict := by
  obtain ⟨a, b, ha, hb, hsteps⟩ := relate_steps h
  obtain ⟨p, hp, hfirst, hpa⟩ := Solution.value_of_get? hwf htotal ha
  obtain ⟨q, hq, hsecond, hqb⟩ := Solution.value_of_get? hwf htotal hb
  have hbare : solution.holds registry (.relation kind first second location) =
      .ok (kind.holds registry.lattice p q) := by
    rw [Solution.holds, hfirst, hsecond]
    rfl
  refine ⟨_, hbare, ?_⟩
  rcases hsteps with ⟨_, _, hap, hbq, rfl⟩ | ⟨rfl, rfl⟩ | ⟨htrivial, rfl⟩ | ⟨-, -, rfl⟩
  · rw [holds_ofBool, hpa _ hap, hqb _ hbq]
  · obtain rfl := Except.ok.inj (hfirst.symm.trans hsecond)
    rw [holds_ofBool, Relation.holds_self hordered hp]
  · rw [holds_of_holdsTrivially hordered hp hq hpa hqb htrivial]
    rfl
  · exact hbare

theorem holds_compute {table : TableFunction} {left right result : SlotId}
    {location location' : Location}
    (h : compute registry table left right result location' = .ok c) :
    ∃ verdict, solution.holds registry (.function table left right result location) =
        .ok verdict ∧ solution.holds registry c = .ok verdict := by
  obtain ⟨a, b, r, ha, hb, hr, hsteps⟩ := compute_steps h
  obtain ⟨p, -, hleft, hpa⟩ := Solution.value_of_get? hwf htotal ha
  obtain ⟨q, -, hright, hqb⟩ := Solution.value_of_get? hwf htotal hb
  obtain ⟨s, -, hresult, hsr⟩ := Solution.value_of_get? hwf htotal hr
  have hbare : ∀ location, solution.holds registry (.function table left right result location) =
      .ok (s == table.apply registry.lattice p q) := by
    intro location
    rw [Solution.holds, hleft, hright, hresult]
    rfl
  refine ⟨_, hbare location, ?_⟩
  rcases hsteps with ⟨_, _, _, hap, hbq, hrs, rfl⟩ | ⟨-, rfl⟩
  · rw [holds_ofBool, hpa _ hap, hqb _ hbq, hsr _ hrs, BEq.comm]
  · exact hbare location'

theorem holds_parts {parts : List Constraint} (hparts : ∀ part ∈ parts, Built registry part)
    (hsoft : ∀ part ∈ parts, part.isSoft = false) :
    ∃ verdict, solution.holdsAll registry parts = .ok verdict ∧
      (verdict = true ↔ ∀ part ∈ parts, solution.holds registry part = .ok true) :=
  Solution.holdsAll_cases fun part hpart =>
    htotal.holds_isOk hwf (hparts part hpart) (hsoft part hpart)

-- Dropping parts that always hold does not change a conjunction.
theorem holds_branch {potential : SlotId} {present absent : List Constraint} {location : Location}
    (hpresent : ∀ part ∈ present, Built registry part)
    (habsent : ∀ part ∈ absent, Built registry part)
    (h : branch registry potential present absent = .ok c) :
    ∃ verdict, solution.holds registry (.existential potential present absent location) =
        .ok verdict ∧ solution.holds registry c = .ok verdict := by
  obtain ⟨hparts, hsteps⟩ := branch_steps h
  obtain ⟨hp, ha⟩ := List.forall_mem_append.mp hparts
  obtain ⟨one, hone, -⟩ := holds_parts hwf htotal hpresent hp
  obtain ⟨two, htwo, -⟩ := holds_parts hwf htotal habsent ha
  refine ⟨_, Solution.holds_existential_eq hone htwo, ?_⟩
  rcases hsteps with ⟨hempty, -, rfl⟩ | ⟨-, slot, rfl⟩
  · rw [← Solution.holdsAll_filter, hempty] at hone
    cases hone
    rfl
  · exact Solution.holds_existential_eq ((Solution.holdsAll_filter present).trans hone)
      ((Solution.holdsAll_filter absent).trans htwo)

-- The four outcomes of the factory: a false assumption, no assumption left, a true conclusion,
-- and the implication itself.
theorem holds_imply {assumptions : List Constraint} {conclusion : Constraint}
    {location : Location} (hassumptions : ∀ part ∈ assumptions, Built registry part)
    (hconclusion : Built registry conclusion)
    (h : imply assumptions conclusion location = .ok c) :
    ∃ verdict, solution.holds registry (.implication assumptions conclusion location) =
        .ok verdict ∧ solution.holds registry c = .ok verdict := by
  obtain ⟨hparts, hsteps⟩ := imply_steps h
  obtain ⟨ha, hc⟩ := List.forall_mem_append.mp hparts
  obtain ⟨all, hall, hiff⟩ := holds_parts hwf htotal hassumptions ha
  obtain ⟨one, hone⟩ := htotal.holds_isOk hwf hconclusion (hc _ List.mem_cons_self)
  refine ⟨_, Solution.holds_implication_eq hall hone, ?_⟩
  rcases hsteps with ⟨rfl, part, hpart, hfalse⟩ | ⟨hempty, rfl⟩ | ⟨htrue, rfl⟩ | ⟨-, -, -, rfl⟩
  · -- The assumption that is false by construction is so under every solution.
    have hnot : all ≠ true := by
      intro htrue
      have hholds := hiff.mp htrue part hpart
      cases part with
      | alwaysFalse => cases hholds
      | _ => cases hfalse
    rw [Bool.eq_false_iff.mpr hnot]
    rfl
  · rw [← Solution.holdsAll_filter, hempty] at hall
    cases hall
    exact hone
  · cases conclusion with
    | alwaysTrue =>
        cases hone
        rw [Bool.or_true]
        rfl
    | _ => cases htrue
  · exact Solution.holds_implication_eq ((Solution.holdsAll_filter assumptions).trans hall) hone

end Normalizes

-- What is decided when a constraint is made was decided right: whatever qualifiers the variables
-- take, the constraint holds if and only if it holds as it is written.
theorem holds_normalized {registry : Registry} (hreachable : registry.Reachable)
    {solution : Solution} (htotal : solution.Total registry) {bare c : Constraint}
    (h : Normalizes registry bare c) :
    ∃ verdict, solution.holds registry bare = .ok verdict ∧
      solution.holds registry c = .ok verdict := by
  have hwf := hreachable.wellFormed
  cases h with
  | relate h => exact holds_relate hwf htotal hreachable.ordered h
  | compute h => exact holds_compute hwf htotal h
  | computeAtResult h =>
      obtain ⟨slot, -, h⟩ := Except.bind_eq_ok.mp h
      exact holds_compute hwf htotal h
  | branch hpresent habsent h => exact holds_branch hwf htotal hpresent habsent h
  | imply hassumptions hconclusion h => exact holds_imply hwf htotal hassumptions hconclusion h

section Sample

open Registry

def taintedSource : Constraint :=
  .relation .equality sourceSlot taintedSlot .missing

def untaintedSink (assumptions : List Constraint) : Constraint :=
  .implication assumptions (.relation .equality sinkSlot untaintedSlot .missing) .missing

def allTainted : Solution :=
  ⟨[(sourceSlot, 0), (sinkSlot, 0)]⟩

-- Of the two assumptions, the one that holds anyway is left out.
theorem taint_holds_normalized :
    taint.Reachable ∧ allTainted.Total taint ∧
      Normalizes taint (untaintedSink [.alwaysTrue, taintedSource])
        (untaintedSink [taintedSource]) ∧
      ∃ verdict,
        allTainted.holds taint (untaintedSink [.alwaysTrue, taintedSource]) = .ok verdict ∧
        allTainted.holds taint (untaintedSink [taintedSource]) = .ok verdict := by
  have hbuilt : ∀ first second c, relate taint .equality first second .missing = .ok c →
      Built taint c := fun first second c h => .relate .refl h
  have hsource := hbuilt sourceSlot taintedSlot taintedSource rfl
  have hsink := hbuilt sinkSlot untaintedSlot _ rfl
  have htotal : allTainted.Total taint := by
    have hslots : taint.variableSlots = [sourceSlot, sinkSlot] := rfl
    rw [Solution.Total, hslots]
    exact List.forall_mem_cons.mpr
      ⟨⟨0, rfl, by decide⟩, List.forall_mem_singleton.mpr ⟨0, rfl, by decide⟩⟩
  have hnormalizes : Normalizes taint (untaintedSink [.alwaysTrue, taintedSource])
      (untaintedSink [taintedSource]) := by
    refine .imply ?_ hsink rfl
    exact List.forall_mem_cons.mpr ⟨.alwaysTrue, List.forall_mem_singleton.mpr hsource⟩
  exact ⟨taint_reachable, htotal, hnormalizes,
    holds_normalized taint_reachable htotal hnormalizes⟩

end Sample

end Constraint

end Qualify
