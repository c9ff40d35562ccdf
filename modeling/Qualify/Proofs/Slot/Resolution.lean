import Qualify.Proofs.Lattice.Building
import Qualify.Proofs.Slot.Interning

namespace Qualify

-- Names that are all different lead back to their qualifiers.
theorem Lattice.find?_name {lattice : Lattice} (hdistinct : lattice.names.Nodup) {q : Qualifier}
    (hq : q < lattice.size) : lattice.find? (lattice.name q) = some q := by
  have hlt : q < lattice.names.length := hq
  have hname : lattice.name q = lattice.names[q] := by
    rw [name, name?, List.getElem?_eq_getElem hlt, Option.getD_some]
  rw [find?, hname, List.idxOf?_eq_some_iff]
  refine ⟨hlt, rfl, fun j hj heq => ?_⟩
  have hsame := (List.getElem_inj hdistinct).mp heq
  omega

namespace Registry

def IsConstant (registry : Registry) (q : Qualifier) (id : SlotId) : Prop :=
  ∃ slot, registry.get? id = some slot ∧ slot.constant? = some q

theorem Reachable.interned {registry : Registry} (h : registry.Reachable) : registry.Interned := by
  obtain ⟨declaration, lattice, -, hreaches⟩ := h
  exact hreaches.interns.interned (empty_interned lattice)

theorem Reachable.names_nodup {registry : Registry} (h : registry.Reachable) :
    registry.lattice.names.Nodup := by
  obtain ⟨declaration, lattice, hbuild, hreaches⟩ := h
  have hrealizes := Lattice.build_realizes hbuild
  rw [hreaches.interns.lattice_eq, empty, hrealizes.names_eq]
  exact hrealizes.passes .distinct

theorem key?_eq_constant_iff {slot : Slot} {q : Qualifier} :
    slot.key? = some (.constant q) ↔ slot.constant? = some q := by
  rcases slot with ⟨id, location, kind⟩
  cases kind with
  | constant p => simp [Slot.key?, SlotKind.key?, Slot.constant?]
  | _ => simp [Slot.key?, SlotKind.key?, Slot.constant?]

theorem Interned.isConstant_iff {registry : Registry} (h : registry.Interned) {q : Qualifier}
    {id : SlotId} : registry.IsConstant q id ↔ registry.find? (.constant q) = some id := by
  rw [h.find?_iff]
  exact exists_congr fun slot => and_congr_right fun _ => key?_eq_constant_iff.symm

section Constants

variable {registry : Registry} {q : Qualifier}

-- What a request for the constant of a qualifier comes to once the qualifier is known to be one.
theorem createConstant_eq (hq : q < registry.lattice.size) :
    registry.createConstant q = registry.reuse (registry.find? (.constant q))
      (registry.add .missing (.constant q) fun id r =>
        { r with constants := (q, id) :: r.constants }) := by
  have hcontains : registry.lattice.contains q = true := decide_eq_true hq
  rw [createConstant, if_pos hcontains]
  rfl

theorem Interned.createConstant_of_forall_not (h : registry.Interned)
    (hq : q < registry.lattice.size) (hnone : ∀ id, ¬registry.IsConstant q id) :
    registry.createConstant q = registry.add .missing (.constant q) fun id r =>
      { r with constants := (q, id) :: r.constants } := by
  have hfind : registry.find? (.constant q) = none :=
    Option.eq_none_iff_forall_ne_some.mpr fun id hfind => hnone id (h.isConstant_iff.mpr hfind)
  rw [createConstant_eq hq, hfind, reuse]

theorem createConstant_of_find? (hq : q < registry.lattice.size) {id : SlotId}
    (h : registry.find? (.constant q) = some id) :
    registry.createConstant q = (.ok id, registry) := by
  rw [createConstant_eq hq, h]
  rfl

-- There is a constant afterwards, unless there is none and no number is left for it.
theorem createConstant_cases (hq : q < registry.lattice.size) :
    (∃ id after, registry.createConstant q = (.ok id, after) ∧
        after.find? (.constant q) = some id) ∨
      (registry.nextId? = none ∧ registry.find? (.constant q) = none ∧
        registry.createConstant q = (.error (.exhausted registry.slots.size), registry)) := by
  have houtcome := createConstant_outcome registry q
  cases hanswer : (registry.createConstant q).1 with
  | ok id => exact .inl ⟨id, _, Prod.ext hanswer rfl, houtcome.find?_eq rfl hanswer⟩
  | error e =>
      rw [createConstant_eq hq] at hanswer ⊢
      cases hfind : registry.find? (.constant q) with
      | some id =>
          rw [hfind] at hanswer
          cases hanswer
      | none =>
          rw [hfind] at hanswer
          cases hnext : registry.nextId? with
          | some id =>
              simp [reuse, add, hnext] at hanswer
          | none => exact .inr ⟨rfl, rfl, by simp [reuse, add, hnext]⟩

theorem resolve_name (hdistinct : registry.lattice.names.Nodup) (hq : q < registry.lattice.size) :
    registry.resolve (.named (registry.lattice.name q)) = registry.createConstant q := by
  simp only [resolve, Lattice.find?_name hdistinct hq]

theorem resolve_placeholder (hinterned : registry.Interned) {id : SlotId} {slot : Slot}
    (hget : registry.get? id = some slot) :
    registry.resolve (.placeholder id) = (.ok id, registry) := by
  have hid : slot.id = id := SlotId.eq_of_index (Nat.succ.inj (hinterned.number_eq _ _ hget))
  simp [resolve, slot_eq_ok.mpr hget, Except.map, hid]

-- A variable answers to its placeholder; a constant to its name, which the distinct names lead
-- back to.
theorem resolve_annotOf (hwf : registry.WellFormed) (hinterned : registry.Interned)
    (hdistinct : registry.lattice.names.Nodup) {id : SlotId} {slot : Slot}
    (hget : registry.get? id = some slot) :
    ∃ annot, registry.annotOf id = .ok annot ∧ registry.resolve annot = (.ok id, registry) := by
  have hslot := slot_eq_ok.mpr hget
  cases hconstant : slot.constant? with
  | none =>
      refine ⟨.placeholder id, ?_, resolve_placeholder hinterned hget⟩
      rw [annotOf, Except.bind_of_ok hslot, hconstant]
      rfl
  | some q =>
      have hq := hwf.constant_lt id.index slot q hget hconstant
      have hfind := hinterned.isConstant_iff.mp ⟨slot, hget, hconstant⟩
      refine ⟨.named (registry.lattice.name q), ?_, ?_⟩
      · rw [annotOf, Except.bind_of_ok hslot, hconstant]
        rfl
      · rw [resolve_name hdistinct hq, createConstant_of_find? hq hfind]

-- All ways to ask for the constant of a qualifier lead to one slot, and change nothing.
structure Settled (registry : Registry) (q : Qualifier) (id : SlotId) : Prop where
  equivalentAnnot_eq : registry.equivalentAnnot q = (.ok (.placeholder id), registry)
  resolve_name_eq :
    registry.resolve (.named (registry.lattice.name q)) = (.ok id, registry)
  resolve_placeholder_eq : registry.resolve (.placeholder id) = (.ok id, registry)
  isConstant_iff : ∀ other, registry.IsConstant q other ↔ other = id

theorem Interned.settled (h : registry.Interned) (hdistinct : registry.lattice.names.Nodup)
    (hq : q < registry.lattice.size) {id : SlotId}
    (hfind : registry.find? (.constant q) = some id) : registry.Settled q id := by
  have hcreate := createConstant_of_find? hq hfind
  obtain ⟨slot, hget, -⟩ := (h.find?_iff _ _).mp hfind
  refine ⟨?_, ?_, resolve_placeholder h hget, fun other => ?_⟩
  · rw [equivalentAnnot, hcreate]
    rfl
  · rw [resolve_name hdistinct hq, hcreate]
  · rw [h.isConstant_iff, hfind, Option.some.injEq, eq_comm]

end Constants

-- The annotation of a slot is resolved to the slot. The placeholder for a qualifier and its name
-- are resolved to its one constant, whichever is asked for first and whatever else is asked for in
-- between. Only if all numbers are in use and none of them for the constant, both are refused.
theorem resolve_annotated {registry : Registry} (hreachable : registry.Reachable) :
    (∀ id slot, registry.get? id = some slot →
      ∃ annot, registry.annotOf id = .ok annot ∧ registry.resolve annot = (.ok id, registry)) ∧
    ∀ q < registry.lattice.size,
      (∃ id after, registry.equivalentAnnot q = (.ok (.placeholder id), after) ∧
        registry.resolve (.named (registry.lattice.name q)) = (.ok id, after) ∧
        ∀ later, after.Reaches later → later.lattice = registry.lattice ∧ later.Settled q id) ∨
      (registry.nextId? = none ∧ (∀ id, ¬registry.IsConstant q id) ∧
        registry.equivalentAnnot q = (.error (.exhausted registry.slots.size), registry) ∧
        registry.resolve (.named (registry.lattice.name q)) =
          (.error (.exhausted registry.slots.size), registry)) := by
  have hinterned := hreachable.interned
  have hdistinct := hreachable.names_nodup
  refine ⟨fun id slot => resolve_annotOf hreachable.wellFormed hinterned hdistinct, fun q hq => ?_⟩
  rw [resolve_name hdistinct hq, equivalentAnnot]
  rcases createConstant_cases hq with ⟨id, after, hcreate, hfind⟩ | ⟨hnext, hnone, hcreate⟩
  · have hafter : registry.Interns after := by
      have houtcome := createConstant_outcome registry q
      rw [hcreate] at houtcome
      exact houtcome.interns
    rw [hcreate]
    refine .inl ⟨id, after, rfl, rfl, fun later hlater => ?_⟩
    have hlattice := (hafter.trans hlater.interns).lattice_eq
    have hsettled := ((hafter.trans hlater.interns).interned hinterned).settled
      (hlattice ▸ hdistinct) (hlattice ▸ hq) (hlater.interns.find?_of_some hfind)
    exact ⟨hlattice, hsettled⟩
  · rw [hcreate]
    refine .inr ⟨hnext, fun id hconstant => ?_, rfl, rfl⟩
    cases hnone.symm.trans (hinterned.isConstant_iff.mp hconstant)

-- Where all numbers are in use for variables, no annotation leads to the constant of a qualifier.
theorem filled_annotation_refused :
    ∃ registry : Registry, registry.Reachable ∧ registry.lattice = taintLattice ∧
      (∀ id, ¬registry.IsConstant 0 id) ∧
      registry.equivalentAnnot 0 = (.error (.exhausted 0xFFFFFFFF), registry) ∧
      registry.resolve (.named "Tainted") = (.error (.exhausted 0xFFFFFFFF), registry) := by
  obtain ⟨registry, hreaches, hsize, hvariables⟩ :=
    @exists_reaches_size (empty taintLattice) 0xFFFFFFFF (by decide)
  have hreachable : registry.Reachable := ⟨taintDeclaration, taintLattice, rfl, hreaches⟩
  have hlattice : registry.lattice = taintLattice := hreaches.grows.lattice_eq
  have hfull : registry.slots.size = 0xFFFFFFFF := hsize.trans (Nat.zero_add _)
  have hconstant : ∀ id, ¬registry.IsConstant 0 id := by
    rintro id ⟨slot, hget, hslot⟩
    cases (hvariables id.index slot (Nat.zero_le _) hget).symm.trans hslot
  have hnext : registry.nextId? = none := dif_neg (by rw [hfull]; decide)
  have hcreate : registry.createConstant 0 = (.error (.exhausted 0xFFFFFFFF), registry) := by
    have hq : 0 < registry.lattice.size := hlattice ▸ Nat.two_pos
    rw [hreachable.interned.createConstant_of_forall_not hq hconstant, ← hfull]
    simp only [add, hnext]
  refine ⟨registry, hreachable, hlattice, hconstant, ?_, ?_⟩
  · rw [equivalentAnnot, hcreate]
    rfl
  · rw [resolve, hlattice]
    exact hcreate

def untyped : Registry :=
  (empty taintLattice).after (.sourceVariable (.code "io" 1 1 "") none true)

theorem taint_resolve_annotated :
    taint.Reachable ∧ taint.annotOf untaintedSlot = .ok (.named "Untainted") ∧
      taint.resolve (.named "Untainted") = (.ok untaintedSlot, taint) ∧
      untyped.Reachable ∧
      ∃ id after, untyped.equivalentAnnot 1 = (.ok (.placeholder id), after) ∧
        untyped.resolve (.named "Untainted") = (.ok id, after) ∧
        (after.after (.equivalentAnnot 0)).Settled 1 id := by
  have huntyped : untyped.Reachable := ⟨taintDeclaration, taintLattice, rfl, Reaches.refl.step _⟩
  obtain ⟨hslots, -⟩ := resolve_annotated taint_reachable
  obtain ⟨annot, hannot, hresolve⟩ := hslots untaintedSlot _ rfl
  have hname : taint.annotOf untaintedSlot = .ok (.named "Untainted") := rfl
  cases hname.symm.trans hannot
  obtain ⟨-, hconstants⟩ := resolve_annotated huntyped
  rcases hconstants 1 (by decide) with ⟨id, after, hannot, hname, hlater⟩ | ⟨hnext, -⟩
  · exact ⟨taint_reachable, rfl, hresolve, huntyped, id, after, hannot, hname,
      (hlater _ (Reaches.refl.step _)).2⟩
  · cases hnext

end Registry

end Qualify
