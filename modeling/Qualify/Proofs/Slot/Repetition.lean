import Qualify.Proofs.Slot.Interning

namespace Qualify.Registry

inductive Response where
  | slot (id : SlotId)
  | annot (annot : Annot)
  | done

def answer (registry : Registry) : Request → Except SlotError Response
  | .sourceVariable location declaredType insertable =>
      (registry.createSourceVariable location declaredType insertable).1.map .slot
  | .polyInvoke location => (registry.createPolyInvoke location).1.map .slot
  | .refinement location refined => (registry.createRefinement location refined).1.map .slot
  | .arithmetic location => (registry.createArithmetic location).1.map .slot
  | .constant q => (registry.createConstant q).1.map .slot
  | .existential potential alternative =>
      (registry.createExistential potential alternative).1.map .slot
  | .combine receiver declared => (registry.createCombine receiver declared).1.map .slot
  | .lub left right => (registry.createLub left right).1.map .slot
  | .storeConstants => registry.storeConstants.1.map fun _ => .done
  | .equivalentAnnot q => (registry.equivalentAnnot q).1.map .annot
  | .resolve annot => (registry.resolve annot).1.map .slot
  | .resolveText text => (registry.resolveText text).1.map .slot

-- Only a slot without a location is a new one each time.
def Request.isKeyed : Request → Bool
  | .sourceVariable location .. | .polyInvoke location | .refinement location _ =>
      !location.isMissing
  | _ => true

def Request.subject? : Request → Option (Location × SlotKind)
  | .sourceVariable location declaredType insertable =>
      some (location, .sourceVariable declaredType insertable)
  | .polyInvoke location => some (location, .polyInvoke)
  | .refinement location refined => some (location, .refinement refined)
  | .arithmetic location => some (location, .arithmetic)
  | .constant q => some (.missing, .constant q)
  | .existential potential alternative => some (.missing, .existential potential alternative)
  | .combine receiver declared => some (.missing, .combine receiver declared)
  | .lub left right => some (.missing, .leastUpperBound left right)
  | .storeConstants | .equivalentAnnot _ | .resolve _ | .resolveText _ => none

theorem exists_outcome (registry : Registry) {request : Request} {location : Location}
    {kind : SlotKind} (h : request.subject? = some (location, kind)) :
    ∃ result, Outcome registry location kind result ∧
      registry.answer request = result.1.map .slot ∧ registry.after request = result.2 := by
  cases request with
  | sourceVariable location declaredType insertable =>
      cases h
      exact ⟨_, createSourceVariable_outcome registry _ _ _, rfl, rfl⟩
  | polyInvoke location =>
      cases h
      exact ⟨_, createPolyInvoke_outcome registry _, rfl, rfl⟩
  | refinement location refined =>
      cases h
      exact ⟨_, createRefinement_outcome registry _ _, rfl, rfl⟩
  | arithmetic location =>
      cases h
      exact ⟨_, createArithmetic_outcome registry _, rfl, rfl⟩
  | constant q =>
      cases h
      exact ⟨_, createConstant_outcome registry _, rfl, rfl⟩
  | existential potential alternative =>
      cases h
      exact ⟨_, createExistential_outcome registry _ _, rfl, rfl⟩
  | combine receiver declared =>
      cases h
      exact ⟨_, createCombine_outcome registry _ _, rfl, rfl⟩
  | lub left right =>
      cases h
      exact ⟨_, createLub_outcome registry _ _, rfl, rfl⟩
  | _ => cases h

-- A granted request is answered with the slot that is found by its key.
theorem find?_after (registry : Registry) {request : Request} {location : Location}
    {kind : SlotKind} {key : SlotKey} {id : SlotId}
    (hsubject : request.subject? = some (location, kind)) (hkey : kind.key? location = some key)
    (hanswer : registry.answer request = .ok (.slot id)) :
    (registry.after request).find? key = some id := by
  obtain ⟨result, houtcome, hsame, hafter⟩ := exists_outcome registry hsubject
  rw [hsame] at hanswer
  obtain ⟨found, hfound, heq⟩ := Except.map_eq_ok.mp hanswer
  cases heq
  rw [hafter]
  exact houtcome.find?_eq hkey hfound

section Repetition

variable {registry later : Registry}

section Combinators

variable {location : Location} {kind : SlotKind}

-- Once a request for a key has been answered it is answered the same way, and changes nothing.
theorem keyed_again {check check' : Except SlotError Unit}
    {fresh fresh' : Answer} {id : SlotId} (key : SlotKey) (hkey : kind.key? location = some key)
    (houtcome : Outcome registry location kind
      (registry.guarded check (registry.reuse (registry.find? key) fresh)))
    (hid : (registry.guarded check (registry.reuse (registry.find? key) fresh)).1 = .ok id)
    (hlater : Interns (registry.guarded check (registry.reuse (registry.find? key) fresh)).2 later)
    (hcheck : registry.Interns later → check = .ok () → check' = .ok ()) :
    later.guarded check' (later.reuse (later.find? key) fresh') = (.ok id, later) := by
  have hfind := hlater.find?_of_some (houtcome.find?_eq hkey hid)
  have hinterns := houtcome.interns.trans hlater
  cases check with
  | error e => cases hid
  | ok =>
      rw [hcheck hinterns rfl, hfind]
      rfl

theorem get?_add {note : SlotId → Registry → Registry} {id : SlotId}
    (hslots : ∀ id r, (note id r).slots = r.slots)
    (hid : (registry.add location kind note).1 = .ok id) :
    (registry.add location kind note).2.get? id = some ⟨id, location, kind⟩ := by
  unfold add at hid ⊢
  split at hid
  · cases hid
  · rename_i next hnext
    cases hid
    simp [get?, hslots, index_of_nextId? hnext]

-- A slot found at the location has another kind perhaps, but the same label, or the request is
-- refused.
theorem label_createLocated {note : SlotId → Registry → Registry} {id : SlotId}
    (hslots : ∀ id r, (note id r).slots = r.slots)
    (hid : (registry.createLocated location kind note).1 = .ok id) :
    ∃ slot, (registry.createLocated location kind note).2.get? id = some slot ∧
      slot.kind.label = kind.label := by
  unfold createLocated at hid ⊢
  split at hid
  · rename_i hmissing
    rw [if_pos hmissing]
    exact ⟨_, get?_add hslots hid, rfl⟩
  · rename_i hcode
    rw [if_neg hcode]
    split at hid
    · split at hid
      · cases hid
      · split at hid
        · rename_i known hlookup _ slot hget hlabel
          cases hid
          simp only [hget, hlabel, if_true]
          exact ⟨slot, rfl, hlabel⟩
        · cases hid
    · exact ⟨_, get?_add (fun id r => hslots id _) hid, rfl⟩

theorem createLocated_again {note : SlotId → Registry → Registry} {id : SlotId}
    (hcode : location.isMissing = false) (hslots : ∀ id r, (note id r).slots = r.slots)
    (houtcome : Outcome registry location kind (registry.createLocated location kind note))
    (hkind : kind.key? location = if location.isMissing then none else some (.located location))
    (hid : (registry.createLocated location kind note).1 = .ok id)
    (hlater : Interns (registry.createLocated location kind note).2 later) :
    later.createLocated location kind note = (.ok id, later) := by
  rw [hcode] at hkind
  have hfind : later.located.lookup location = some id :=
    hlater.find?_of_some (houtcome.find?_eq hkind hid)
  obtain ⟨slot, hget, hlabel⟩ := label_createLocated hslots hid
  unfold createLocated
  simp [hcode, hfind, hlater.get?_of_some hget, hlabel]

end Combinators

theorem createConstant_again {q : Qualifier} {id : SlotId}
    (hid : (registry.createConstant q).1 = .ok id)
    (hlater : Interns (registry.createConstant q).2 later) :
    later.createConstant q = (.ok id, later) := by
  refine keyed_again (.constant q) rfl (createConstant_outcome registry q) hid hlater ?_
  intro hinterns hcheck
  rw [hinterns.lattice_eq]
  exact hcheck

-- By induction on the qualifiers: every constant made by the first run is still known later on.
theorem createConstants_again {qs : List Qualifier}
    (hdone : (registry.createConstants qs).1 = .ok ())
    (hlater : Interns (registry.createConstants qs).2 later) :
    later.createConstants qs = (.ok (), later) := by
  induction qs generalizing registry with
  | nil => rfl
  | cons q rest ih =>
      unfold createConstants at hdone hlater
      split at hdone
      · cases hdone
      · rename_i id middle heq
        rw [heq] at hlater
        have hrest := createConstants_interns middle rest
        have hid : (registry.createConstant q).1 = .ok id := by rw [heq]
        have hmiddle : (registry.createConstant q).2 = middle := by rw [heq]
        rw [createConstants, createConstant_again hid (hmiddle ▸ hrest.trans hlater)]
        exact ih hdone hlater

theorem resolve_again {annot : Annot} {id : SlotId} (hid : (registry.resolve annot).1 = .ok id)
    (hlater : Interns (registry.resolve annot).2 later) :
    later.resolve annot = (.ok id, later) := by
  have hlattice := ((resolve_interns registry annot).trans hlater).lattice_eq
  cases annot with
  | placeholder target =>
      obtain ⟨slot, hslot, rfl⟩ := Except.map_eq_ok.mp hid
      rw [resolve, hlater.slot_eq_ok hslot]
      rfl
  | named name =>
      simp only [resolve, hlattice] at hid hlater ⊢
      cases hfind : registry.lattice.find? name with
      | none => simp [hfind] at hid
      | some q =>
          simp only [hfind] at hid hlater ⊢
          exact createConstant_again hid hlater

theorem resolveText_again {text : String} {id : SlotId}
    (hid : (registry.resolveText text).1 = .ok id)
    (hlater : Interns (registry.resolveText text).2 later) :
    later.resolveText text = (.ok id, later) := by
  unfold resolveText at hid hlater ⊢
  cases hparse : Annot.parse text with
  | none => simp [hparse] at hid
  | some annot =>
      simp only [hparse] at hid hlater ⊢
      exact resolve_again hid hlater

-- The refined slot is looked up before the location, and it is still there.
theorem createRefinement_again {location : Location} {refined id : SlotId}
    (hcode : location.isMissing = false)
    (hid : (registry.createRefinement location refined).1 = .ok id)
    (hlater : Interns (registry.createRefinement location refined).2 later) :
    later.createRefinement location refined = (.ok id, later) := by
  have hinterns := (createRefinement_outcome registry location refined).interns.trans hlater
  have houtcome := createRefinement_outcome registry location refined
  unfold createRefinement at hid hlater houtcome ⊢
  cases hslot : registry.slot refined with
  | error e =>
      rw [hslot] at hid
      cases hid
  | ok slot =>
      rw [hslot] at hid hlater houtcome
      rw [hinterns.slot_eq_ok hslot]
      exact createLocated_again hcode (fun id r => rfl) houtcome rfl hid hlater

theorem repeated {α : Type} {first second : Except SlotError α × Registry} {f : α → Response}
    {response : Response}
    (hagain : ∀ a, first.1 = .ok a → first.2.Interns later → second = (.ok a, later))
    (hanswer : first.1.map f = .ok response) (hlater : first.2.Interns later) :
    second.1.map f = .ok response ∧ second.2 = later := by
  obtain ⟨a, ha, rfl⟩ := Except.map_eq_ok.mp hanswer
  rw [hagain a ha hlater]
  exact ⟨rfl, rfl⟩

theorem slots_check_again {first second : SlotId} (hinterns : registry.Interns later)
    (hcheck : (do
      let _ ← registry.slot first
      let _ ← registry.slot second) = Except.ok ()) :
    (do
      let _ ← later.slot first
      let _ ← later.slot second) = Except.ok () := by
  obtain ⟨one, other, hone, hother, -⟩ := Except.bind₂_return_eq_ok.mp hcheck
  exact Except.bind₂_return_eq_ok.mpr
    ⟨one, other, hinterns.slot_eq_ok hone, hinterns.slot_eq_ok hother, rfl⟩

theorem variables_check_again {first second : SlotId} (hinterns : registry.Interns later)
    (hcheck : (do
      let _ ← registry.requireVariable first
      let _ ← registry.requireVariable second) = Except.ok ()) :
    (do
      let _ ← later.requireVariable first
      let _ ← later.requireVariable second) = Except.ok () := by
  obtain ⟨one, other, hone, hother, -⟩ := Except.bind₂_return_eq_ok.mp hcheck
  obtain ⟨hone, hconstant⟩ := requireVariable_eq_ok.mp hone
  obtain ⟨hother, hconstant'⟩ := requireVariable_eq_ok.mp hother
  exact Except.bind₂_return_eq_ok.mpr ⟨one, other,
    requireVariable_eq_ok.mpr ⟨hinterns.get?_of_some hone, hconstant⟩,
    requireVariable_eq_ok.mpr ⟨hinterns.get?_of_some hother, hconstant'⟩, rfl⟩

-- What has been asked for once can be asked for again at any later time.
theorem answer_again {request : Request} {response : Response} (hkeyed : request.isKeyed = true)
    (hanswer : registry.answer request = .ok response)
    (hlater : Interns (registry.after request) later) :
    later.answer request = .ok response ∧ later.after request = later := by
  cases request with
  | sourceVariable location declaredType insertable =>
      have hcode : location.isMissing = false := by simpa [Request.isKeyed] using hkeyed
      exact repeated (fun id hid => createLocated_again hcode (fun id r => rfl)
        (createSourceVariable_outcome registry location declaredType insertable) rfl hid)
        hanswer hlater
  | polyInvoke location =>
      have hcode : location.isMissing = false := by simpa [Request.isKeyed] using hkeyed
      exact repeated (fun id hid => createLocated_again hcode (fun id r => rfl)
        (createPolyInvoke_outcome registry location) rfl hid) hanswer hlater
  | refinement location refined =>
      have hcode : location.isMissing = false := by simpa [Request.isKeyed] using hkeyed
      exact repeated (fun id hid => createRefinement_again hcode hid) hanswer hlater
  | arithmetic location =>
      exact repeated (fun id hid hlater => keyed_again (.arithmetic location) rfl
        (createArithmetic_outcome registry location) hid hlater fun _ hcheck => hcheck)
        hanswer hlater
  | constant q => exact repeated (fun id hid => createConstant_again hid) hanswer hlater
  | existential potential alternative =>
      exact repeated (fun id hid hlater => keyed_again (.existential potential alternative) rfl
        (createExistential_outcome registry potential alternative) hid hlater
        variables_check_again) hanswer hlater
  | combine receiver declared =>
      exact repeated (fun id hid hlater => keyed_again (.combine receiver declared) rfl
        (createCombine_outcome registry receiver declared) hid hlater slots_check_again)
        hanswer hlater
  | lub left right =>
      exact repeated (fun id hid hlater => keyed_again (.lub left right) rfl
        (createLub_outcome registry left right) hid hlater slots_check_again) hanswer hlater
  | storeConstants =>
      refine repeated (fun _ hdone hlater => ?_) hanswer hlater
      have hlattice := ((createConstants_interns registry _).trans hlater).lattice_eq
      rw [storeConstants, hlattice]
      exact createConstants_again hdone hlater
  | equivalentAnnot q =>
      refine repeated (fun annot hannot hlater => ?_) hanswer hlater
      obtain ⟨id, hid, rfl⟩ := Except.map_eq_ok.mp hannot
      rw [equivalentAnnot, createConstant_again hid hlater]
      rfl
  | resolve annot => exact repeated (fun id hid => resolve_again hid) hanswer hlater
  | resolveText text => exact repeated (fun id hid => resolveText_again hid) hanswer hlater

end Repetition

theorem Interned.eq_of_key {registry : Registry} (h : registry.Interned) {first second : SlotId}
    {a b : Slot} {key : SlotKey} (ha : registry.get? first = some a)
    (hb : registry.get? second = some b) (hakey : a.key? = some key) (hbkey : b.key? = some key) :
    first = second := by
  have hfirst := (h.find?_iff key first).mpr ⟨a, ha, hakey⟩
  have hsecond := (h.find?_iff key second).mpr ⟨b, hb, hbkey⟩
  exact Option.some.inj (hfirst.symm.trans hsecond)

-- Whatever is asked of a registry, its slots stay what they are and are found by what identifies
-- them. So there is one slot for each key, the one that a request for it is answered with, and to
-- ask for it again changes nothing.
theorem interned_of_reaches {lattice : Lattice} {registry : Registry}
    (h : (empty lattice).Reaches registry) :
    registry.Interned ∧
      (∀ later, registry.Reaches later →
        ∀ id slot, registry.get? id = some slot → later.get? id = some slot) ∧
      (∀ first second a b key, registry.get? first = some a → registry.get? second = some b →
        a.key? = some key → b.key? = some key → first = second) ∧
      (∀ request location kind key id, request.subject? = some (location, kind) →
        kind.key? location = some key → registry.answer request = .ok (.slot id) →
        (registry.after request).find? key = some id) ∧
      ∀ request response later, request.isKeyed = true → registry.answer request = .ok response →
        (registry.after request).Reaches later →
        later.answer request = .ok response ∧ later.after request = later := by
  have hinterned := h.interns.interned (empty_interned lattice)
  refine ⟨hinterned, fun later hlater id slot hget => hlater.interns.get?_of_some hget,
    fun first second a b key ha hb hakey hbkey => hinterned.eq_of_key ha hb hakey hbkey, ?_, ?_⟩
  · intro request location kind key id hsubject hkey hanswer
    exact find?_after registry hsubject hkey hanswer
  · intro request response later hkeyed hanswer hlater
    exact answer_again hkeyed hanswer hlater.interns

theorem taint_interned_of_reaches :
    (empty taintLattice).Reaches taint ∧ taint.Interned ∧
      (taint.after (.lub sourceSlot sinkSlot)).get? sinkSlot = taint.get? sinkSlot ∧
      taint.answer (.lub sourceSlot sinkSlot) = .ok (.slot ⟨4, by decide⟩) ∧
      (taint.after (.lub sourceSlot sinkSlot)).find? (.lub sourceSlot sinkSlot) =
        some ⟨4, by decide⟩ ∧
      (((taint.after (.lub sourceSlot sinkSlot)).after (.refinement .missing sourceSlot)).answer
        (.lub sourceSlot sinkSlot) = .ok (.slot ⟨4, by decide⟩) ∧
        ((taint.after (.lub sourceSlot sinkSlot)).after (.refinement .missing sourceSlot)).after
          (.lub sourceSlot sinkSlot) =
          (taint.after (.lub sourceSlot sinkSlot)).after (.refinement .missing sourceSlot)) := by
  have hreaches : (empty taintLattice).Reaches taint := ((Reaches.refl.step _).step _).step _
  obtain ⟨hinterned, hkept, -, hfound, hagain⟩ := interned_of_reaches hreaches
  exact ⟨hreaches, hinterned, hkept _ (Reaches.refl.step _) sinkSlot _ rfl, rfl,
    hfound (.lub sourceSlot sinkSlot) _ _ _ _ rfl rfl rfl,
    hagain (.lub sourceSlot sinkSlot) _ _ rfl rfl (Reaches.refl.step _)⟩

end Qualify.Registry
