import Qualify.Proofs.Slot.Interning

namespace Qualify

namespace Links

theorem mem_targets {links : Links} {source target : SlotId} :
    target ∈ links.targets source ↔ (source, target) ∈ links := by
  simp [targets, leaving]

theorem targets_append (first second : Links) (source : SlotId) :
    targets (first ++ second) source = first.targets source ++ second.targets source := by
  simp [targets, leaving]

theorem targets_singleton (origin id source : SlotId) :
    targets [(origin, id)] source = if origin = source then [id] else [] := by
  by_cases h : origin = source <;> simp [targets, leaving, h]

-- A slot merged with itself has the least upper bound as its target once, as any other operand has.
theorem targets_mergeLinks (left right id source : SlotId) :
    (Registry.mergeLinks left right id).targets source =
      if left = source ∨ right = source then [id] else [] := by
  unfold Registry.mergeLinks
  split
  · rename_i hself
    simp [targets_singleton, hself]
  · rename_i hother
    rw [← List.singleton_append, targets_append, targets_singleton, targets_singleton]
    by_cases hleft : left = source
    · have hright : right ≠ source := fun h => hother (h.trans hleft.symm)
      simp [hleft, hright]
    · simp [hleft]

-- Where each slot brings along its own links, the targets of a source come in the order of slots.
theorem targets_flatMap {linksOf : Slot → Links} {linked : Slot → Bool} {source : SlotId}
    (h : ∀ slot, (linksOf slot).targets source = if linked slot then [slot.id] else [])
    (slots : List Slot) :
    targets (slots.flatMap linksOf) source = (slots.filter linked).map (·.id) := by
  induction slots with
  | nil => rfl
  | cons slot rest ih =>
      rw [List.flatMap_cons, targets_append, h, ih, List.filter_cons]
      split <;> rfl

end Links

namespace Slot

def merges (slot : Slot) (operand : SlotId) : Bool :=
  match slot.kind with
  | .leastUpperBound left right => left == operand || right == operand
  | _ => false

def refines (slot : Slot) (operand : SlotId) : Bool :=
  match slot.kind with
  | .refinement refined => refined == operand
  | _ => false

def mergeLinks (slot : Slot) : Links :=
  match slot.kind with
  | .leastUpperBound left right => Registry.mergeLinks left right slot.id
  | _ => []

def refinementLinks (slot : Slot) : Links :=
  match slot.kind with
  | .refinement refined => [(refined, slot.id)]
  | _ => []

theorem merges_iff {slot : Slot} {operand : SlotId} :
    slot.merges operand = true ↔
      ∃ left right, slot.kind = .leastUpperBound left right ∧
        (left = operand ∨ right = operand) := by
  unfold merges
  cases slot.kind <;> simp

theorem refines_iff {slot : Slot} {operand : SlotId} :
    slot.refines operand = true ↔ slot.kind = .refinement operand := by
  unfold refines
  cases slot.kind <;> simp

theorem targets_mergeLinks (source : SlotId) (slot : Slot) :
    slot.mergeLinks.targets source = if slot.merges source then [slot.id] else [] := by
  unfold mergeLinks merges
  cases slot.kind with
  | leastUpperBound left right => simp [Links.targets_mergeLinks]
  | _ => rfl

theorem targets_refinementLinks (source : SlotId) (slot : Slot) :
    slot.refinementLinks.targets source = if slot.refines source then [slot.id] else [] := by
  unfold refinementLinks refines
  cases slot.kind with
  | refinement refined => simp [Links.targets_singleton]
  | _ => rfl

end Slot

namespace Registry

-- The links are those that the slots bring along, in the order of the slots.
structure Linked (registry : Registry) : Prop where
  merges_eq : registry.merges = registry.slots.toList.flatMap Slot.mergeLinks
  refinements_eq : registry.refinements = registry.slots.toList.flatMap Slot.refinementLinks

-- The notes made of a new slot are its links, apart from the ways to find it.
structure NotesLinks (location : Location) (kind : SlotKind)
    (note : SlotId → Registry → Registry) : Prop where
  slots_eq : ∀ id r, (note id r).slots = r.slots
  merges_eq : ∀ id r, (note id r).merges = r.merges ++ Slot.mergeLinks ⟨id, location, kind⟩
  refinements_eq : ∀ id r,
    (note id r).refinements = r.refinements ++ Slot.refinementLinks ⟨id, location, kind⟩

-- Of a slot that brings no links along none are noted.
theorem NotesLinks.of_unlinked {location : Location} {kind : SlotKind}
    {note : SlotId → Registry → Registry}
    (hkind : ∀ id, Slot.mergeLinks ⟨id, location, kind⟩ = [] ∧
      Slot.refinementLinks ⟨id, location, kind⟩ = [])
    (hnote : ∀ id r, (note id r).slots = r.slots ∧ (note id r).merges = r.merges ∧
      (note id r).refinements = r.refinements) : NotesLinks location kind note where
  slots_eq id r := (hnote id r).1
  merges_eq id r := by rw [(hkind id).1, List.append_nil, (hnote id r).2.1]
  refinements_eq id r := by rw [(hkind id).2, List.append_nil, (hnote id r).2.2]

namespace Linked

variable {registry : Registry} (h : registry.Linked)
include h

theorem add {location : Location} {kind : SlotKind} {note : SlotId → Registry → Registry}
    (hnote : NotesLinks location kind note) : (registry.add location kind note).2.Linked := by
  unfold Registry.add
  split
  · exact h
  · constructor
    · simp [hnote.slots_eq, hnote.merges_eq, h.merges_eq]
    · simp [hnote.slots_eq, hnote.refinements_eq, h.refinements_eq]

theorem guarded {check : Except SlotError Unit} {request : Answer} (hrequest : request.2.Linked) :
    (registry.guarded check request).2.Linked := by
  cases check with
  | error e => exact h
  | ok => exact hrequest

theorem reuse {known : Option SlotId} {fresh : Answer} (hfresh : fresh.2.Linked) :
    (registry.reuse known fresh).2.Linked := by
  cases known with
  | none => exact hfresh
  | some id => exact h

-- A known slot keeps the links that it has, whatever is asked for at its location.
theorem createLocated {location : Location} {kind : SlotKind} {note : SlotId → Registry → Registry}
    (hnote : NotesLinks location kind note) :
    (registry.createLocated location kind note).2.Linked := by
  unfold Registry.createLocated
  split
  · exact h.add hnote
  · split
    · split
      · exact h
      · split <;> exact h
    · exact h.add ⟨fun id _ => hnote.slots_eq id _, fun id _ => hnote.merges_eq id _,
        fun id _ => hnote.refinements_eq id _⟩

theorem keyed {check : Except SlotError Unit} {known : Option SlotId} {location : Location}
    {kind : SlotKind} {note : SlotId → Registry → Registry}
    (hnote : NotesLinks location kind note) :
    (registry.guarded check (registry.reuse known (registry.add location kind note))).2.Linked :=
  h.guarded (h.reuse (h.add hnote))

theorem createConstant (q : Qualifier) : (registry.createConstant q).2.Linked :=
  h.keyed (.of_unlinked (fun _ => ⟨rfl, rfl⟩) fun _ _ => ⟨rfl, rfl, rfl⟩)

-- Only refinements and joins write links; the other requests leave both tables as they are.
theorem after (request : Request) : (registry.after request).Linked := by
  have hconstant : ∀ (r : Registry) q, r.Linked → (r.createConstant q).2.Linked :=
    fun r q h => h.createConstant q
  cases request with
  | sourceVariable location declaredType insertable =>
      exact h.createLocated (.of_unlinked (fun _ => ⟨rfl, rfl⟩) fun _ _ => ⟨rfl, rfl, rfl⟩)
  | polyInvoke location =>
      exact h.createLocated (.of_unlinked (fun _ => ⟨rfl, rfl⟩) fun _ _ => ⟨rfl, rfl, rfl⟩)
  | refinement location refined =>
      exact h.guarded (h.createLocated
        ⟨fun _ _ => rfl, fun _ _ => (List.append_nil _).symm, fun _ _ => rfl⟩)
  | arithmetic location =>
      exact h.keyed (.of_unlinked (fun _ => ⟨rfl, rfl⟩) fun _ _ => ⟨rfl, rfl, rfl⟩)
  | constant q => exact h.createConstant q
  | existential potential alternative =>
      exact h.keyed (.of_unlinked (fun _ => ⟨rfl, rfl⟩) fun _ _ => ⟨rfl, rfl, rfl⟩)
  | combine receiver declared =>
      exact h.keyed (.of_unlinked (fun _ => ⟨rfl, rfl⟩) fun _ _ => ⟨rfl, rfl, rfl⟩)
  | lub left right =>
      exact h.keyed ⟨fun _ _ => rfl, fun _ _ => rfl, fun _ _ => (List.append_nil _).symm⟩
  | storeConstants => exact createConstants_keeps hconstant _ h
  | equivalentAnnot q => exact h.createConstant q
  | resolve annot => exact resolve_keeps hconstant annot h
  | resolveText text => exact resolveText_keeps hconstant text h

end Linked

theorem Reaches.linked {start registry : Registry} (h : start.Reaches registry)
    (hstart : start.Linked) : registry.Linked := by
  induction h with
  | refl => exact hstart
  | step _ request ih => exact ih.after request

theorem empty_linked (lattice : Lattice) : (empty lattice).Linked :=
  ⟨rfl, rfl⟩

theorem Linked.mergedTo_eq {registry : Registry} (h : registry.Linked) (id : SlotId) :
    registry.mergedTo id = (registry.slots.toList.filter (·.merges id)).map (·.id) := by
  rw [mergedTo, h.merges_eq]
  exact Links.targets_flatMap (Slot.targets_mergeLinks id) _

theorem Linked.refinedBy_eq {registry : Registry} (h : registry.Linked) (id : SlotId) :
    registry.refinedBy id = (registry.slots.toList.filter (·.refines id)).map (·.id) := by
  rw [refinedBy, h.refinements_eq]
  exact Links.targets_flatMap (Slot.targets_refinementLinks id) _

section Listed

variable {registry : Registry} (h : registry.Interned)
include h

theorem Interned.index_eq {i : Nat} {slot : Slot} (hi : registry.slots[i]? = some slot) :
    slot.id.index = i :=
  Nat.succ.inj (h.number_eq i slot hi)

-- The slots that pass a test are listed in the order of their numbers.
theorem Interned.pairwise_listed (test : Slot → Bool) :
    ((registry.slots.toList.filter test).map (·.id)).Pairwise fun a b => a.number < b.number := by
  have hslots := pairwise_slots fun i slot => h.index_eq
  exact List.pairwise_map.mpr ((hslots.filter test).imp Nat.succ_lt_succ)

theorem Interned.mem_listed {test : Slot → Bool} {id : SlotId} :
    id ∈ (registry.slots.toList.filter test).map (·.id) ↔
      ∃ slot, registry.get? id = some slot ∧ test slot = true := by
  rw [List.mem_map]
  constructor
  · rintro ⟨slot, hslot, rfl⟩
    obtain ⟨hmem, htest⟩ := List.mem_filter.mp hslot
    obtain ⟨i, hi⟩ := Array.getElem?_of_mem (Array.mem_toList_iff.mp hmem)
    exact ⟨slot, by rw [get?, h.index_eq hi, hi], htest⟩
  · rintro ⟨slot, hget, htest⟩
    have hmem := Array.mem_toList_iff.mpr (Array.mem_of_getElem? hget)
    exact ⟨slot, List.mem_filter.mpr ⟨hmem, htest⟩, SlotId.eq_of_index (h.index_eq hget)⟩

end Listed

def MergedInto (registry : Registry) (operand id : SlotId) : Prop :=
  ∃ slot left right, registry.get? id = some slot ∧ slot.kind = .leastUpperBound left right ∧
    (left = operand ∨ right = operand)

theorem mem_mergedTo {registry : Registry} (hlinked : registry.Linked)
    (hinterned : registry.Interned) {operand id : SlotId} :
    id ∈ registry.mergedTo operand ↔ registry.MergedInto operand id := by
  rw [hlinked.mergedTo_eq, hinterned.mem_listed]
  simp only [Slot.merges_iff, MergedInto, exists_and_left]

-- Whatever has been asked of a registry, and whether it was granted, known already or refused, each
-- slot is linked to exactly those least upper bounds that it is an operand of and to exactly those
-- refinements that were made of it, once to each of them and in the order of their numbers.
theorem adjacency_exact {lattice : Lattice} {registry : Registry}
    (h : (empty lattice).Reaches registry) (operand : SlotId) :
    (registry.mergedTo operand).Pairwise (fun a b => a.number < b.number) ∧
      (∀ id, id ∈ registry.mergedTo operand ↔
        ∃ slot left right, registry.get? id = some slot ∧ slot.kind = .leastUpperBound left right ∧
          (left = operand ∨ right = operand)) ∧
      (registry.refinedBy operand).Pairwise (fun a b => a.number < b.number) ∧
      ∀ id, id ∈ registry.refinedBy operand ↔
        ∃ slot, registry.get? id = some slot ∧ slot.kind = .refinement operand := by
  have hlinked := h.linked (empty_linked lattice)
  have hinterned := h.interns.interned (empty_interned lattice)
  refine ⟨?_, fun id => mem_mergedTo hlinked hinterned, ?_, fun id => ?_⟩
  · rw [hlinked.mergedTo_eq]
    exact hinterned.pairwise_listed _
  · rw [hlinked.refinedBy_eq]
    exact hinterned.pairwise_listed _
  · rw [hlinked.refinedBy_eq, hinterned.mem_listed]
    simp only [Slot.refines_iff]

def joinSlot : SlotId := ⟨4, by decide⟩

def selfJoinSlot : SlotId := ⟨5, by decide⟩

def refinedSlot : SlotId := ⟨6, by decide⟩

def lastJoinSlot : SlotId := ⟨7, by decide⟩

-- The source is merged with the sink and with itself, and what comes out of the first merge is
-- merged again. The second request for a refinement is answered with the first refinement, although
-- it is about another slot, and the third one is refused.
def flows : Registry :=
  [.lub sourceSlot sinkSlot, .lub sourceSlot sourceSlot, .lub sourceSlot sinkSlot,
    .refinement (.code "io" 3 1 "") sourceSlot, .refinement (.code "io" 3 1 "") sinkSlot,
    .refinement (.code "io" 1 1 "") sinkSlot, .lub joinSlot sinkSlot].foldl after taint

theorem Reaches.foldl {start registry : Registry} (h : start.Reaches registry)
    (requests : List Request) : start.Reaches (requests.foldl after registry) := by
  induction requests generalizing registry with
  | nil => exact h
  | cons request rest ih => exact ih (h.step request)

theorem flows_reached : (empty taintLattice).Reaches flows :=
  Reaches.foldl (((Reaches.refl.step _).step _).step _) _

theorem flows_adjacency_exact :
    (empty taintLattice).Reaches flows ∧
      flows.mergedTo sourceSlot = [joinSlot, selfJoinSlot] ∧
      (∀ id, id ∈ [joinSlot, selfJoinSlot] ↔
        ∃ slot left right, flows.get? id = some slot ∧ slot.kind = .leastUpperBound left right ∧
          (left = sourceSlot ∨ right = sourceSlot)) ∧
      flows.refinedBy sourceSlot = [refinedSlot] ∧
      (∀ id, id ∈ [refinedSlot] ↔
        ∃ slot, flows.get? id = some slot ∧ slot.kind = .refinement sourceSlot) ∧
      flows.refinedBy sinkSlot = [] ∧
      ∀ id slot, flows.get? id = some slot → slot.kind ≠ .refinement sinkSlot := by
  have hmerged : flows.mergedTo sourceSlot = [joinSlot, selfJoinSlot] := by decide
  have hrefined : flows.refinedBy sourceSlot = [refinedSlot] := by decide
  have hnone : flows.refinedBy sinkSlot = [] := by decide
  obtain ⟨-, hjoins, -, hrefinements⟩ := adjacency_exact flows_reached sourceSlot
  obtain ⟨-, -, -, hsink⟩ := adjacency_exact flows_reached sinkSlot
  refine ⟨flows_reached, hmerged, hmerged ▸ hjoins, hrefined, hrefined ▸ hrefinements, hnone,
    fun id slot hget hkind => ?_⟩
  have hmem := (hsink id).mpr ⟨slot, hget, hkind⟩
  rw [hnone] at hmem
  cases hmem

end Registry

end Qualify
