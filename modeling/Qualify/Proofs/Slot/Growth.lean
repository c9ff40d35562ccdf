import Qualify.Slot.Registry
import Qualify.Proofs.Lattice.Closed

namespace Qualify

theorem SlotId.eq_of_index {a b : SlotId} (h : a.index = b.index) : a = b := by
  cases a
  cases b
  cases h
  rfl

namespace Registry

theorem slot_eq_ok {registry : Registry} {id : SlotId} {slot : Slot} :
    registry.slot id = .ok slot ↔ registry.get? id = some slot := by
  unfold Registry.slot
  cases registry.get? id with
  | none => simp
  | some found => simp

theorem requireVariable_eq_ok {registry : Registry} {id : SlotId} {slot : Slot} :
    registry.requireVariable id = .ok slot ↔
      registry.get? id = some slot ∧ slot.constant? = none := by
  unfold requireVariable
  rw [Except.bind_eq_ok]
  constructor
  · rintro ⟨found, hfound, h⟩
    split at h
    · cases h
    · rename_i hconstant
      cases h
      exact ⟨slot_eq_ok.mp hfound, by simpa [Slot.isConstant] using hconstant⟩
  · rintro ⟨hget, hconstant⟩
    exact ⟨slot, slot_eq_ok.mpr hget, by simp [Slot.isConstant, hconstant]⟩

-- Slots stand at the positions of their numbers, and constants are qualifiers of the lattice.
structure WellFormed (registry : Registry) : Prop where
  closed : registry.lattice.Closed
  index_eq : ∀ (i : Nat) (slot : Slot), registry.slots[i]? = some slot → slot.id.index = i
  constant_lt : ∀ (i : Nat) (slot : Slot) (q : Qualifier), registry.slots[i]? = some slot →
    slot.constant? = some q → q < registry.lattice.size

theorem pairwise_slots {registry : Registry}
    (h : ∀ (i : Nat) (slot : Slot), registry.slots[i]? = some slot → slot.id.index = i) :
    registry.slots.toList.Pairwise fun a b => a.id.index < b.id.index := by
  rw [List.pairwise_iff_getElem]
  intro i j hi hj hlt
  rw [h i _ (by simp), h j _ (by simp)]
  exact hlt

-- All that a request can do to a registry. Known slots stay what they are.
structure Grows (before after : Registry) : Prop where
  lattice_eq : after.lattice = before.lattice
  get?_eq : ∀ id slot, before.get? id = some slot → after.get? id = some slot
  wellFormed : before.WellFormed → after.WellFormed

theorem Grows.refl (registry : Registry) : Grows registry registry :=
  ⟨rfl, fun _ _ h => h, id⟩

theorem Grows.trans {first second third : Registry} (h : Grows first second)
    (h' : Grows second third) : Grows first third where
  lattice_eq := h'.lattice_eq.trans h.lattice_eq
  get?_eq id slot hget := h'.get?_eq id slot (h.get?_eq id slot hget)
  wellFormed hwf := h'.wellFormed (h.wellFormed hwf)

theorem getElem?_push_cases {slots : Array Slot} {added slot : Slot} {i : Nat}
    (h : (slots.push added)[i]? = some slot) :
    slots[i]? = some slot ∨ i = slots.size ∧ added = slot := by
  rw [Array.getElem?_push] at h
  split at h
  · rename_i heq
    exact .inr ⟨heq, Option.some.inj h⟩
  · exact .inl h

theorem index_of_nextId? {registry : Registry} {id : SlotId} (h : registry.nextId? = some id) :
    id.index = registry.slots.size := by
  obtain ⟨hlt, heq⟩ := Option.dite_none_right_eq_some.mp h
  exact (congrArg SlotId.index (Option.some.inj heq)).symm

-- The notes of a request concern the ways to find slots and not the slots.
theorem add_grows {registry : Registry} {location : Location} {kind : SlotKind}
    {note : SlotId → Registry → Registry} (hlattice : ∀ id r, (note id r).lattice = r.lattice)
    (hslots : ∀ id r, (note id r).slots = r.slots)
    (hkind : ∀ q, kind = .constant q → q < registry.lattice.size) :
    registry.Grows (registry.add location kind note).2 := by
  unfold add
  split
  · exact Grows.refl registry
  · rename_i new hnew
    refine ⟨hlattice _ _, fun id slot hget => ?_, fun hwf => ⟨?_, fun i slot hi => ?_,
      fun i slot q hi hq => ?_⟩⟩
    · have hne : id.index ≠ registry.slots.size := by
        intro heq
        simp [get?, heq] at hget
      simpa [get?, hslots, Array.getElem?_push, hne] using hget
    · rw [hlattice]
      exact hwf.closed
    · rw [hslots] at hi
      rcases getElem?_push_cases hi with hi | ⟨rfl, rfl⟩
      · exact hwf.index_eq i slot hi
      · exact index_of_nextId? hnew
    · rw [hlattice]
      rw [hslots] at hi
      rcases getElem?_push_cases hi with hi | ⟨rfl, rfl⟩
      · exact hwf.constant_lt i slot q hi hq
      · refine hkind q ?_
        unfold Slot.constant? at hq
        split at hq
        · rename_i heq
          cases hq
          exact heq
        · cases hq

theorem guarded_grows {registry : Registry} {check : Except SlotError Unit} {request : Answer}
    (h : check = .ok () → registry.Grows request.2) :
    registry.Grows (registry.guarded check request).2 := by
  cases check with
  | error e => exact Grows.refl registry
  | ok => exact h rfl

theorem reuse_grows {registry : Registry} {known : Option SlotId} {fresh : Answer}
    (h : registry.Grows fresh.2) : registry.Grows (registry.reuse known fresh).2 := by
  cases known with
  | none => exact h
  | some id => exact Grows.refl registry

theorem createLocated_grows {registry : Registry} {location : Location} {kind : SlotKind}
    {note : SlotId → Registry → Registry} (hlattice : ∀ id r, (note id r).lattice = r.lattice)
    (hslots : ∀ id r, (note id r).slots = r.slots) (hkind : ∀ q, kind ≠ .constant q) :
    registry.Grows (registry.createLocated location kind note).2 := by
  have hconstant : ∀ q, kind = .constant q → q < registry.lattice.size :=
    fun q h => absurd h (hkind q)
  unfold createLocated
  split
  · exact add_grows hlattice hslots hconstant
  · split
    · split
      · exact Grows.refl registry
      · split <;> exact Grows.refl registry
    · exact add_grows (fun id r => hlattice id _) (fun id r => hslots id _) hconstant

theorem createConstant_grows (registry : Registry) (q : Qualifier) :
    registry.Grows (registry.createConstant q).2 := by
  refine guarded_grows fun hcheck => reuse_grows (add_grows ?_ ?_ fun p hp => ?_)
  · exact fun id r => rfl
  · exact fun id r => rfl
  · cases hp
    by_cases hcontains : registry.lattice.contains q
    · simpa [Lattice.contains] using hcontains
    · simp [hcontains] at hcheck

section Constants

-- Apart from the requests for one slot, a registry is changed by creating constants only.
variable {P : Registry → Prop} (hP : ∀ registry q, P registry → P (registry.createConstant q).2)
include hP

theorem createConstants_keeps (qs : List Qualifier) {registry : Registry} (h : P registry) :
    P (registry.createConstants qs).2 := by
  induction qs generalizing registry with
  | nil => exact h
  | cons q rest ih =>
      have hfirst := hP registry q h
      unfold createConstants
      split
      · rename_i e after heq
        rwa [heq] at hfirst
      · rename_i id after heq
        rw [heq] at hfirst
        exact ih hfirst

theorem resolve_keeps (annot : Annot) {registry : Registry} (h : P registry) :
    P (registry.resolve annot).2 := by
  unfold resolve
  split
  · exact h
  · split
    · exact hP registry _ h
    · exact h

theorem resolveText_keeps (text : String) {registry : Registry} (h : P registry) :
    P (registry.resolveText text).2 := by
  unfold resolveText
  split
  · exact resolve_keeps hP _ h
  · exact h

end Constants

inductive Request where
  | sourceVariable (location : Location) (declaredType : Option String) (insertable : Bool)
  | polyInvoke (location : Location)
  | refinement (location : Location) (refined : SlotId)
  | arithmetic (location : Location)
  | constant (q : Qualifier)
  | existential (potential alternative : SlotId)
  | combine (receiver declared : SlotId)
  | lub (left right : SlotId)
  | storeConstants
  | equivalentAnnot (q : Qualifier)
  | resolve (annot : Annot)
  | resolveText (text : String)

def after (registry : Registry) : Request → Registry
  | .sourceVariable location declaredType insertable =>
      (registry.createSourceVariable location declaredType insertable).2
  | .polyInvoke location => (registry.createPolyInvoke location).2
  | .refinement location refined => (registry.createRefinement location refined).2
  | .arithmetic location => (registry.createArithmetic location).2
  | .constant q => (registry.createConstant q).2
  | .existential potential alternative => (registry.createExistential potential alternative).2
  | .combine receiver declared => (registry.createCombine receiver declared).2
  | .lub left right => (registry.createLub left right).2
  | .storeConstants => registry.storeConstants.2
  | .equivalentAnnot q => (registry.equivalentAnnot q).2
  | .resolve annot => (registry.resolve annot).2
  | .resolveText text => (registry.resolveText text).2

-- The requests for several slots are chains of `createConstant`, which is all that has to grow.
theorem after_grows (registry : Registry) (request : Request) :
    registry.Grows (registry.after request) := by
  have hconstant : ∀ later q, registry.Grows later → registry.Grows (later.createConstant q).2 :=
    fun later q h => h.trans (createConstant_grows later q)
  cases request with
  | sourceVariable location declaredType insertable =>
      exact createLocated_grows (fun id r => rfl) (fun id r => rfl) (by simp)
  | polyInvoke location => exact createLocated_grows (fun id r => rfl) (fun id r => rfl) (by simp)
  | refinement location refined =>
      exact guarded_grows fun _ =>
        createLocated_grows (fun id r => rfl) (fun id r => rfl) (by simp)
  | arithmetic location =>
      exact guarded_grows fun _ =>
        reuse_grows (add_grows (fun id r => rfl) (fun id r => rfl) (by simp))
  | constant q => exact createConstant_grows registry q
  | existential potential alternative =>
      exact guarded_grows fun _ =>
        reuse_grows (add_grows (fun id r => rfl) (fun id r => rfl) (by simp))
  | combine receiver declared =>
      exact guarded_grows fun _ =>
        reuse_grows (add_grows (fun id r => rfl) (fun id r => rfl) (by simp))
  | lub left right =>
      exact guarded_grows fun _ =>
        reuse_grows (add_grows (fun id r => rfl) (fun id r => rfl) (by simp))
  | storeConstants => exact createConstants_keeps hconstant _ (Grows.refl registry)
  | equivalentAnnot q => exact createConstant_grows registry q
  | resolve annot => exact resolve_keeps hconstant annot (Grows.refl registry)
  | resolveText text => exact resolveText_keeps hconstant text (Grows.refl registry)

inductive Reaches (start : Registry) : Registry → Prop
  | refl : Reaches start start
  | step {registry : Registry} (h : Reaches start registry) (request : Request) :
      Reaches start (registry.after request)

theorem Reaches.grows {start registry : Registry} (h : start.Reaches registry) :
    start.Grows registry := by
  induction h with
  | refl => exact Grows.refl start
  | step h request ih => exact ih.trans (after_grows _ request)

theorem Reaches.trans {first second third : Registry} (h : first.Reaches second)
    (h' : second.Reaches third) : first.Reaches third := by
  induction h' with
  | refl => exact h
  | step _ request ih => exact ih.step request

theorem slots_after_sourceVariable {registry : Registry} (h : registry.slots.size < 0xFFFFFFFF) :
    (registry.after (.sourceVariable .missing none true)).slots =
      registry.slots.push ⟨⟨registry.slots.size, h⟩, .missing, .sourceVariable none true⟩ := by
  have hnext : registry.nextId? = some ⟨registry.slots.size, h⟩ := dif_pos h
  simp [after, createSourceVariable, createLocated, Location.isMissing, add, hnext]

-- A registry takes variables as long as there are numbers for them.
theorem exists_reaches_size (registry : Registry) {count : Nat}
    (hcount : registry.slots.size + count ≤ 0xFFFFFFFF) :
    ∃ later, registry.Reaches later ∧ later.slots.size = registry.slots.size + count ∧
      ∀ i slot, registry.slots.size ≤ i → later.slots[i]? = some slot → slot.constant? = none := by
  induction count with
  | zero =>
      refine ⟨registry, .refl, rfl, fun i slot hi hslot => ?_⟩
      obtain ⟨hlt, -⟩ := Array.getElem?_eq_some_iff.mp hslot
      omega
  | succ count ih =>
      obtain ⟨later, hreaches, hsize, hvariables⟩ := ih (by omega)
      have hslots := @slots_after_sourceVariable later (by omega)
      refine ⟨_, hreaches.step (.sourceVariable .missing none true), ?_, fun i slot hi hslot => ?_⟩
      · rw [hslots, Array.size_push, hsize, Nat.add_assoc]
      · rw [hslots] at hslot
        rcases getElem?_push_cases hslot with hslot | ⟨-, rfl⟩
        · exact hvariables i slot hi hslot
        · rfl

-- The registries that come up in a run: the lattice is built from a declaration, and there are no
-- slots at the start.
def Reachable (registry : Registry) : Prop :=
  ∃ declaration lattice, Lattice.build declaration = .ok lattice ∧ (empty lattice).Reaches registry

theorem Reachable.reaches {registry later : Registry} (h : registry.Reachable)
    (hlater : registry.Reaches later) : later.Reachable := by
  obtain ⟨declaration, lattice, hbuild, hreaches⟩ := h
  exact ⟨declaration, lattice, hbuild, hreaches.trans hlater⟩

theorem Reachable.wellFormed {registry : Registry} (h : registry.Reachable) :
    registry.WellFormed := by
  obtain ⟨declaration, lattice, hbuild, hreaches⟩ := h
  have hempty : (empty lattice).WellFormed :=
    ⟨Lattice.build_closed hbuild, by simp [empty], by simp [empty]⟩
  exact hreaches.grows.wellFormed hempty

-- A run over two qualifiers: first their constants, then two variables.
def taintDeclaration : Lattice.Declaration where
  names := ["Tainted", "Untainted"]
  edges := [("Untainted", "Tainted")]
  views := []
  operations := []

def taintLattice : Lattice where
  names := ["Tainted", "Untainted"]
  order := ⟨2, #[true, false, true, true]⟩
  joins := ⟨2, #[0, 0, 0, 1]⟩
  views := ⟨2, #[0, 1, 0, 1]⟩
  operations := []

def taint : Registry :=
  (((empty taintLattice).after .storeConstants).after
    (.sourceVariable (.code "io" 1 1 "") none true)).after
    (.sourceVariable (.code "io" 2 1 "") none true)

def taintedSlot : SlotId := ⟨0, by decide⟩

def untaintedSlot : SlotId := ⟨1, by decide⟩

def sourceSlot : SlotId := ⟨2, by decide⟩

def sinkSlot : SlotId := ⟨3, by decide⟩

theorem taint_reachable : taint.Reachable :=
  ⟨taintDeclaration, taintLattice, rfl, ((Reaches.refl.step _).step _).step _⟩

end Registry

end Qualify
