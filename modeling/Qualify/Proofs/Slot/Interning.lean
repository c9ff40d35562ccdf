import Mathlib.Logic.Relation
import Qualify.Proofs.Entries
import Qualify.Proofs.Slot.Growth

namespace Qualify

inductive SlotKey where
  | located (location : Location)
  | arithmetic (location : Location)
  | constant (q : Qualifier)
  | existential (potential alternative : SlotId)
  | combine (receiver declared : SlotId)
  | lub (left right : SlotId)
deriving DecidableEq

namespace SlotKind

-- Nothing identifies a slot that has only a missing location.
def key? (location : Location) : SlotKind → Option SlotKey
  | constant q => some (.constant q)
  | existential potential alternative => some (.existential potential alternative)
  | combine receiver declared => some (.combine receiver declared)
  | leastUpperBound left right => some (.lub left right)
  | arithmetic => some (.arithmetic location)
  | sourceVariable .. | refinement _ | polyInvoke =>
      if location.isMissing then none else some (.located location)

def operands : SlotKind → List SlotId
  | refinement refined => [refined]
  | existential potential alternative => [potential, alternative]
  | combine receiver declared => [receiver, declared]
  | leastUpperBound left right => [left, right]
  | sourceVariable .. | constant _ | arithmetic | polyInvoke => []

end SlotKind

def Slot.key? (slot : Slot) : Option SlotKey :=
  slot.kind.key? slot.location

namespace Registry

def find? (registry : Registry) : SlotKey → Option SlotId
  | .located location => registry.located.lookup location
  | .arithmetic location => registry.arithmetics.lookup location
  | .constant q => registry.constants.lookup q
  | .existential potential alternative => registry.existentials.lookup (potential, alternative)
  | .combine receiver declared => registry.combines.lookup (receiver, declared)
  | .lub left right => registry.lubs.lookup (left, right)

-- The operands of a kind are slots of the registry, those of an existential variables.
def Grounds (registry : Registry) (kind : SlotKind) : Prop :=
  ∀ operand ∈ kind.operands, ∃ slot, registry.get? operand = some slot ∧
    (kind.label = .existential → slot.isVariable = true)

-- Slots are numbered from one, are derived from earlier ones, and are found by what identifies
-- them and by nothing else.
structure Interned (registry : Registry) : Prop where
  number_eq : ∀ i slot, registry.slots[i]? = some slot → slot.id.number = i + 1
  operand_lt : ∀ id slot, registry.get? id = some slot →
    ∀ operand ∈ slot.kind.operands, operand.number < id.number
  grounds : ∀ id slot, registry.get? id = some slot → registry.Grounds slot.kind
  find?_iff : ∀ key id, registry.find? key = some id ↔
    ∃ slot, registry.get? id = some slot ∧ slot.key? = some key

-- One slot more, under the next number, found by a key that found nothing before.
structure Adds (slot : Slot) (before after : Registry) : Prop where
  lattice_eq : after.lattice = before.lattice
  nextId?_eq : before.nextId? = some slot.id
  slots_eq : after.slots = before.slots.push slot
  find?_eq : ∀ key, after.find? key =
    if slot.key? = some key then some slot.id else before.find? key
  fresh : ∀ key, slot.key? = some key → before.find? key = none
  grounds : before.Grounds slot.kind

namespace Adds

variable {slot : Slot} {before after : Registry} (h : Adds slot before after)
include h

theorem get?_eq (id : SlotId) :
    after.get? id = if id = slot.id then some slot else before.get? id := by
  have hindex := index_of_nextId? h.nextId?_eq
  rw [get?, get?, h.slots_eq, Array.getElem?_push, ← hindex]
  by_cases hid : id = slot.id
  · rw [if_pos hid, if_pos (congrArg SlotId.index hid)]
  · rw [if_neg hid, if_neg fun heq => hid (SlotId.eq_of_index heq)]

theorem get?_new : before.get? slot.id = none := by
  rw [get?, index_of_nextId? h.nextId?_eq]
  exact Array.getElem?_size

theorem get?_of_some {id : SlotId} {old : Slot} (hget : before.get? id = some old) :
    after.get? id = some old := by
  rw [h.get?_eq, if_neg, hget]
  rintro rfl
  cases hget.symm.trans h.get?_new

theorem find?_of_some {key : SlotKey} {id : SlotId} (hfind : before.find? key = some id) :
    after.find? key = some id := by
  rw [h.find?_eq, if_neg, hfind]
  intro hkey
  cases hfind.symm.trans (h.fresh key hkey)

theorem grounds_of_grounds {kind : SlotKind} (hkind : before.Grounds kind) :
    after.Grounds kind := by
  intro operand hoperand
  obtain ⟨old, hget, hvariable⟩ := hkind operand hoperand
  exact ⟨old, h.get?_of_some hget, hvariable⟩

-- Each part of the invariant is split into the new slot and the old ones. A key is found at the new
-- slot only if it is its own, and then it was not known before.
theorem interned (hinterned : before.Interned) : after.Interned := by
  have hindex := index_of_nextId? h.nextId?_eq
  refine ⟨fun i found hi => ?_, fun id found hget operand hoperand => ?_,
    fun id found hget => ?_, fun key id => ?_⟩
  · rw [h.slots_eq] at hi
    rcases getElem?_push_cases hi with hi | ⟨rfl, rfl⟩
    · exact hinterned.number_eq i found hi
    · exact congrArg (· + 1) hindex
  · rw [h.get?_eq] at hget
    split at hget
    · rename_i hid
      cases hget
      obtain ⟨old, hold, -⟩ := h.grounds operand hoperand
      have hlt : operand.index < before.slots.size := (Array.getElem?_eq_some_iff.mp hold).1
      rw [hid]
      exact Nat.succ_lt_succ (hindex ▸ hlt)
    · exact hinterned.operand_lt id found hget operand hoperand
  · rw [h.get?_eq] at hget
    split at hget
    · cases hget
      exact h.grounds_of_grounds h.grounds
    · exact h.grounds_of_grounds (hinterned.grounds id found hget)
  · rw [h.find?_eq]
    constructor
    · split
      · rename_i hkey
        rintro ⟨⟩
        exact ⟨slot, by rw [h.get?_eq, if_pos rfl], hkey⟩
      · intro hfind
        obtain ⟨old, hold, hkey⟩ := (hinterned.find?_iff key id).mp hfind
        exact ⟨old, h.get?_of_some hold, hkey⟩
    · rintro ⟨found, hget, hkey⟩
      rw [h.get?_eq] at hget
      split at hget
      · rename_i hid
        cases hget
        rw [if_pos hkey, hid]
      · have hfind := (hinterned.find?_iff key id).mpr ⟨found, hget, hkey⟩
        -- the new slot cannot have the key, as the request was answered with a new slot
        rw [if_neg, hfind]
        intro hslot
        cases hfind.symm.trans (h.fresh key hslot)

end Adds

def Interns : Registry → Registry → Prop :=
  Relation.ReflTransGen fun before after => ∃ slot, Adds slot before after

namespace Interns

theorem refl (registry : Registry) : Interns registry registry :=
  Relation.ReflTransGen.refl

theorem trans {first second third : Registry} (h : Interns first second)
    (h' : Interns second third) : Interns first third :=
  Relation.ReflTransGen.trans h h'

variable {before after : Registry} (h : Interns before after)
include h

theorem lattice_eq : after.lattice = before.lattice := by
  induction h with
  | refl => rfl
  | tail _ hadds ih =>
      obtain ⟨slot, hadds⟩ := hadds
      exact hadds.lattice_eq.trans ih

theorem get?_of_some {id : SlotId} {slot : Slot} (hget : before.get? id = some slot) :
    after.get? id = some slot := by
  induction h with
  | refl => exact hget
  | tail _ hadds ih =>
      obtain ⟨added, hadds⟩ := hadds
      exact hadds.get?_of_some ih

theorem find?_of_some {key : SlotKey} {id : SlotId} (hfind : before.find? key = some id) :
    after.find? key = some id := by
  induction h with
  | refl => exact hfind
  | tail _ hadds ih =>
      obtain ⟨added, hadds⟩ := hadds
      exact hadds.find?_of_some ih

theorem interned (hinterned : before.Interned) : after.Interned := by
  induction h with
  | refl => exact hinterned
  | tail _ hadds ih =>
      obtain ⟨added, hadds⟩ := hadds
      exact hadds.interned ih

theorem slot_eq_ok {id : SlotId} {slot : Slot} (hslot : before.slot id = .ok slot) :
    after.slot id = .ok slot :=
  Registry.slot_eq_ok.mpr (h.get?_of_some (Registry.slot_eq_ok.mp hslot))

end Interns

inductive Outcome (registry : Registry) (location : Location) (kind : SlotKind) : Answer → Prop
  | refused (e : SlotError) : Outcome registry location kind (.error e, registry)
  | known {key : SlotKey} {id : SlotId} (hkey : kind.key? location = some key)
      (hfind : registry.find? key = some id) : Outcome registry location kind (.ok id, registry)
  | added {id : SlotId} {after : Registry} (h : Adds ⟨id, location, kind⟩ registry after) :
      Outcome registry location kind (.ok id, after)

section Outcomes

variable {registry : Registry} {location : Location} {kind : SlotKind}

theorem Outcome.interns {answer : Answer} (h : Outcome registry location kind answer) :
    registry.Interns answer.2 := by
  cases h with
  | refused e => exact Interns.refl registry
  | known hkey hfind => exact Interns.refl registry
  | added h => exact Relation.ReflTransGen.single ⟨_, h⟩

theorem Outcome.find?_eq {answer : Answer} (h : Outcome registry location kind answer)
    {key : SlotKey} (hkey : kind.key? location = some key) {id : SlotId}
    (hanswer : answer.1 = .ok id) : answer.2.find? key = some id := by
  cases h with
  | refused e => cases hanswer
  | known hknown hfind =>
      cases hanswer
      cases hkey.symm.trans hknown
      exact hfind
  | added h =>
      cases hanswer
      exact (h.find?_eq key).trans (if_pos hkey)

theorem add_outcome {note : SlotId → Registry → Registry}
    (hlattice : ∀ id r, (note id r).lattice = r.lattice)
    (hslots : ∀ id r, (note id r).slots = r.slots)
    (hfind : ∀ id r key, (note id r).find? key =
      if kind.key? location = some key then some id else r.find? key)
    (hfresh : ∀ key, kind.key? location = some key → registry.find? key = none)
    (hgrounds : registry.Grounds kind) :
    Outcome registry location kind (registry.add location kind note) := by
  unfold add
  split
  · exact .refused _
  · rename_i id hnext
    exact .added ⟨hlattice id _, hnext, hslots id _, fun key => hfind id _ key, hfresh, hgrounds⟩

theorem guarded_outcome {check : Except SlotError Unit} {request : Answer}
    (h : check = .ok () → Outcome registry location kind request) :
    Outcome registry location kind (registry.guarded check request) := by
  cases check with
  | error e => exact .refused e
  | ok => exact h rfl

theorem reuse_outcome {key : SlotKey} {fresh : Answer} (hkey : kind.key? location = some key)
    (h : (∀ other, kind.key? location = some other → registry.find? other = none) →
      Outcome registry location kind fresh) :
    Outcome registry location kind (registry.reuse (registry.find? key) fresh) := by
  cases hfind : registry.find? key with
  | some id => exact .known hkey hfind
  | none =>
      refine h fun other hother => ?_
      cases hkey.symm.trans hother
      exact hfind

-- A missing location is no key, so that nothing is looked up and nothing remembered.
theorem createLocated_outcome {note : SlotId → Registry → Registry}
    (hkind : kind.key? location = if location.isMissing then none else some (.located location))
    (hlattice : ∀ id r, (note id r).lattice = r.lattice)
    (hslots : ∀ id r, (note id r).slots = r.slots)
    (hfind : ∀ id r key, (note id r).find? key = r.find? key) (hgrounds : registry.Grounds kind) :
    Outcome registry location kind (registry.createLocated location kind note) := by
  unfold createLocated
  split
  · rename_i hmissing
    rw [if_pos hmissing] at hkind
    exact add_outcome hlattice hslots (by simp [hkind, hfind]) (by simp [hkind]) hgrounds
  · rename_i hcode
    rw [if_neg hcode] at hkind
    split
    · rename_i id hknown
      split
      · exact .refused _
      · split
        · exact .known hkind hknown
        · exact .refused _
    · rename_i hnone
      refine add_outcome (fun id r => hlattice id _) (fun id r => hslots id _) (fun id r key => ?_)
        (fun key hkey => ?_) hgrounds
      · rw [hfind, hkind]
        cases key <;> simp [find?, Entries.lookup_cons_eq]
      · cases hkind.symm.trans hkey
        exact hnone

-- Most requests for a slot are of this form.
theorem keyed_outcome {check : Except SlotError Unit} {note : SlotId → Registry → Registry}
    (key : SlotKey) (hkey : kind.key? location = some key)
    (hlattice : ∀ id r, (note id r).lattice = r.lattice)
    (hslots : ∀ id r, (note id r).slots = r.slots)
    (hfind : ∀ id r other, (note id r).find? other =
      if kind.key? location = some other then some id else r.find? other)
    (hgrounds : check = .ok () → registry.Grounds kind) :
    Outcome registry location kind (registry.guarded check
      (registry.reuse (registry.find? key) (registry.add location kind note))) :=
  guarded_outcome fun hcheck => reuse_outcome hkey fun hfresh =>
    add_outcome hlattice hslots hfind hfresh (hgrounds hcheck)

end Outcomes

theorem grounds_pair {registry : Registry} {kind : SlotKind} {first second : SlotId}
    (hoperands : kind.operands = [first, second])
    (hfirst : ∃ slot, registry.get? first = some slot ∧
      (kind.label = .existential → slot.isVariable = true))
    (hsecond : ∃ slot, registry.get? second = some slot ∧
      (kind.label = .existential → slot.isVariable = true)) : registry.Grounds kind := by
  rw [Grounds, hoperands]
  exact List.forall_mem_cons.mpr ⟨hfirst, List.forall_mem_singleton.mpr hsecond⟩

theorem grounds_of_slots {registry : Registry} {kind : SlotKind} {first second : SlotId}
    (hoperands : kind.operands = [first, second]) (hlabel : kind.label ≠ .existential)
    (hcheck : (do
      let _ ← registry.slot first
      let _ ← registry.slot second) = Except.ok ()) : registry.Grounds kind := by
  obtain ⟨one, other, hone, hother, -⟩ := Except.bind₂_return_eq_ok.mp hcheck
  exact grounds_pair hoperands ⟨one, slot_eq_ok.mp hone, fun h => absurd h hlabel⟩
    ⟨other, slot_eq_ok.mp hother, fun h => absurd h hlabel⟩

section Requests

variable (registry : Registry)

theorem createSourceVariable_outcome (location : Location) (declaredType : Option String)
    (insertable : Bool) :
    Outcome registry location (.sourceVariable declaredType insertable)
      (registry.createSourceVariable location declaredType insertable) :=
  createLocated_outcome rfl (fun id r => rfl) (fun id r => rfl) (fun id r key => rfl)
    (by simp [Grounds, SlotKind.operands])

theorem createPolyInvoke_outcome (location : Location) :
    Outcome registry location .polyInvoke (registry.createPolyInvoke location) :=
  createLocated_outcome rfl (fun id r => rfl) (fun id r => rfl) (fun id r key => rfl)
    (by simp [Grounds, SlotKind.operands])

theorem createRefinement_outcome (location : Location) (refined : SlotId) :
    Outcome registry location (.refinement refined) (registry.createRefinement location refined) := by
  refine guarded_outcome fun hcheck => createLocated_outcome rfl (fun id r => rfl)
    (fun id r => rfl) (fun id r key => by cases key <;> rfl) ?_
  obtain ⟨slot, hslot, -⟩ := Except.bind_return_eq_ok.mp hcheck
  exact List.forall_mem_singleton.mpr ⟨slot, slot_eq_ok.mp hslot, by simp [SlotKind.label]⟩

theorem createArithmetic_outcome (location : Location) :
    Outcome registry location .arithmetic (registry.createArithmetic location) := by
  refine keyed_outcome (.arithmetic location) rfl (fun id r => rfl) (fun id r => rfl)
    (fun id r key => ?_) fun _ => ?_
  · cases key <;> simp [find?, Entries.lookup_cons_eq, SlotKind.key?]
  · simp [Grounds, SlotKind.operands]

theorem createConstant_outcome (q : Qualifier) :
    Outcome registry .missing (.constant q) (registry.createConstant q) := by
  refine keyed_outcome (.constant q) rfl (fun id r => rfl) (fun id r => rfl)
    (fun id r key => ?_) fun _ => ?_
  · cases key <;> simp [find?, Entries.lookup_cons_eq, SlotKind.key?]
  · simp [Grounds, SlotKind.operands]

theorem createExistential_outcome (potential alternative : SlotId) :
    Outcome registry .missing (.existential potential alternative)
      (registry.createExistential potential alternative) := by
  refine keyed_outcome (.existential potential alternative) rfl (fun id r => rfl)
    (fun id r => rfl) (fun id r key => ?_) fun hcheck => ?_
  · cases key <;> simp [find?, Entries.lookup_cons_eq, SlotKind.key?]
  · obtain ⟨first, second, hfirst, hsecond, -⟩ := Except.bind₂_return_eq_ok.mp hcheck
    obtain ⟨hfirst, hconstant⟩ := requireVariable_eq_ok.mp hfirst
    obtain ⟨hsecond, hconstant'⟩ := requireVariable_eq_ok.mp hsecond
    exact grounds_pair rfl ⟨first, hfirst, by simp [Slot.isVariable, Slot.isConstant, hconstant]⟩
      ⟨second, hsecond, by simp [Slot.isVariable, Slot.isConstant, hconstant']⟩

theorem createCombine_outcome (receiver declared : SlotId) :
    Outcome registry .missing (.combine receiver declared)
      (registry.createCombine receiver declared) := by
  refine keyed_outcome (.combine receiver declared) rfl (fun id r => rfl)
    (fun id r => rfl) (fun id r key => ?_) (grounds_of_slots rfl (by simp [SlotKind.label]))
  cases key <;> simp [find?, Entries.lookup_cons_eq, SlotKind.key?]

theorem createLub_outcome (left right : SlotId) :
    Outcome registry .missing (.leastUpperBound left right) (registry.createLub left right) := by
  refine keyed_outcome (.lub left right) rfl (fun id r => rfl)
    (fun id r => rfl) (fun id r key => ?_) (grounds_of_slots rfl (by simp [SlotKind.label]))
  cases key <;> simp [find?, Entries.lookup_cons_eq, SlotKind.key?]

theorem Interns.createConstant {start later : Registry} (h : start.Interns later) (q : Qualifier) :
    start.Interns (later.createConstant q).2 :=
  h.trans (createConstant_outcome later q).interns

theorem createConstants_interns (qs : List Qualifier) :
    registry.Interns (registry.createConstants qs).2 :=
  createConstants_keeps (fun _ q h => h.createConstant q) qs (Interns.refl registry)

theorem resolve_interns (annot : Annot) : registry.Interns (registry.resolve annot).2 :=
  resolve_keeps (fun _ q h => h.createConstant q) annot (Interns.refl registry)

theorem resolveText_interns (text : String) : registry.Interns (registry.resolveText text).2 :=
  resolveText_keeps (fun _ q h => h.createConstant q) text (Interns.refl registry)

theorem after_interns (request : Request) : registry.Interns (registry.after request) := by
  cases request with
  | sourceVariable location declaredType insertable =>
      exact (createSourceVariable_outcome registry location declaredType insertable).interns
  | polyInvoke location => exact (createPolyInvoke_outcome registry location).interns
  | refinement location refined => exact (createRefinement_outcome registry location refined).interns
  | arithmetic location => exact (createArithmetic_outcome registry location).interns
  | constant q => exact (createConstant_outcome registry q).interns
  | existential potential alternative =>
      exact (createExistential_outcome registry potential alternative).interns
  | combine receiver declared => exact (createCombine_outcome registry receiver declared).interns
  | lub left right => exact (createLub_outcome registry left right).interns
  | storeConstants => exact createConstants_interns registry registry.lattice.qualifiers
  | equivalentAnnot q => exact (createConstant_outcome registry q).interns
  | resolve annot => exact resolve_interns registry annot
  | resolveText text => exact resolveText_interns registry text

end Requests

theorem Reaches.interns {start registry : Registry} (h : start.Reaches registry) :
    start.Interns registry := by
  induction h with
  | refl => exact Interns.refl start
  | step h request ih => exact ih.trans (after_interns _ request)

theorem empty_interned (lattice : Lattice) : (empty lattice).Interned where
  number_eq := by simp [empty]
  operand_lt := by simp [empty, get?]
  grounds := by simp [empty, get?]
  find?_iff key id := by cases key <;> simp [empty, get?, find?]

end Registry

end Qualify
