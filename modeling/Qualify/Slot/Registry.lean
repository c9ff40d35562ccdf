import Qualify.Slot.Annot
import Qualify.Slot.Basic
import Qualify.Slot.Links

namespace Qualify

inductive SlotError where
  | exhausted (count : Nat)
  | kindMismatch (id : SlotId) (location : Location) (expected found : SlotLabel)
  | foreignQualifier (q : Qualifier)
  | missingLocation (label : SlotLabel)
  | notVariable (id : SlotId)
  | unknownAnnot (text : String)
  | unknownSlot (id : SlotId)
deriving DecidableEq, Repr

def SlotError.message : SlotError → String
  | exhausted count => s!"no slot identifiers are left after {count} slots"
  | kindMismatch id location expected found =>
      s!"slot {id.text} at `{location.text}' is a {found.name} slot, but a {expected.name} slot was requested"
  | foreignQualifier q => s!"qualifier index {q} is not part of the lattice"
  | missingLocation label => s!"{label.name} slots cannot be created without a location"
  | notVariable id => s!"slot {id.text} is a constant, but a variable slot is required"
  | unknownAnnot text => s!"`{text}' is neither a placeholder annotation nor a known qualifier"
  | unknownSlot id => s!"unknown slot {id.text}"

-- All slots of one run, and for each way to identify a slot the slots found by it. A location
-- identifies a source variable, a refinement or a polymorphic invocation on the one hand and the
-- result of an operation on the other; a pair of slots is ordered.
structure Registry where
  lattice : Lattice
  slots : Array Slot
  located : List (Location × SlotId)
  arithmetics : List (Location × SlotId)
  constants : List (Qualifier × SlotId)
  existentials : List ((SlotId × SlotId) × SlotId)
  combines : List ((SlotId × SlotId) × SlotId)
  lubs : List ((SlotId × SlotId) × SlotId)
  merges : Links
  refinements : Links
deriving Repr

namespace Registry

-- A request answers with a slot or an error, and either way with the registry it leaves behind.
abbrev Answer := Except SlotError SlotId × Registry

def empty (lattice : Lattice) : Registry where
  lattice := lattice
  slots := #[]
  located := []
  arithmetics := []
  constants := []
  existentials := []
  combines := []
  lubs := []
  merges := []
  refinements := []

def get? (registry : Registry) (id : SlotId) : Option Slot :=
  registry.slots[id.index]?

def slot (registry : Registry) (id : SlotId) : Except SlotError Slot :=
  match registry.get? id with
  | some slot => .ok slot
  | none => .error (.unknownSlot id)

def requireVariable (registry : Registry) (id : SlotId) : Except SlotError Slot := do
  let slot ← registry.slot id
  if slot.isConstant then .error (.notVariable id) else .ok slot

def nextId? (registry : Registry) : Option SlotId :=
  SlotId.ofIndex? registry.slots.size

def variableSlots (registry : Registry) : List SlotId :=
  (registry.slots.toList.filter (·.isVariable)).map (·.id)

def constantSlots (registry : Registry) : List SlotId :=
  (registry.slots.toList.filter (·.isConstant)).map (·.id)

def arithmeticSlot? (registry : Registry) (location : Location) : Option SlotId :=
  registry.arithmetics.lookup location

def mergedTo (registry : Registry) (id : SlotId) : List SlotId :=
  registry.merges.targets id

def refinedBy (registry : Registry) (id : SlotId) : List SlotId :=
  registry.refinements.targets id

def isMergedTo (registry : Registry) (source goal : SlotId) : Bool :=
  registry.merges.reaches source goal

-- Adds a slot under the next number, and then notes by what it is found.
def add (registry : Registry) (location : Location) (kind : SlotKind)
    (note : SlotId → Registry → Registry) : Answer :=
  match registry.nextId? with
  | none => (.error (.exhausted registry.slots.size), registry)
  | some id => (.ok id, note id { registry with slots := registry.slots.push ⟨id, location, kind⟩ })

-- Refuses a request before anything is changed.
def guarded (registry : Registry) (check : Except SlotError Unit) (request : Answer) : Answer :=
  match check with
  | .error e => (.error e, registry)
  | .ok () => request

-- Answers with the slot already known under a key, and adds one only when there is none.
def reuse (registry : Registry) (known : Option SlotId) (fresh : Answer) : Answer :=
  match known with
  | some id => (.ok id, registry)
  | none => fresh

-- Slots without a location are never shared. A known slot has to be of the kind requested.
def createLocated (registry : Registry) (location : Location) (kind : SlotKind)
    (note : SlotId → Registry → Registry) : Answer :=
  if location.isMissing then registry.add location kind note
  else match registry.located.lookup location with
    | some id =>
        match registry.get? id with
        | none => (.error (.unknownSlot id), registry)
        | some slot =>
            if slot.kind.label = kind.label then (.ok id, registry)
            else (.error (.kindMismatch id location kind.label slot.kind.label), registry)
    | none => registry.add location kind fun id r =>
        note id { r with located := (location, id) :: r.located }

def createSourceVariable (registry : Registry) (location : Location) (declaredType : Option String)
    (insertable : Bool) : Answer :=
  registry.createLocated location (.sourceVariable declaredType insertable) fun _ r => r

def createPolyInvoke (registry : Registry) (location : Location) : Answer :=
  registry.createLocated location .polyInvoke fun _ r => r

def createRefinement (registry : Registry) (location : Location) (refined : SlotId) : Answer :=
  registry.guarded (do let _ ← registry.slot refined) <|
    registry.createLocated location (.refinement refined) fun id r =>
      { r with refinements := r.refinements ++ [(refined, id)] }

def createArithmetic (registry : Registry) (location : Location) : Answer :=
  registry.guarded (if location.isMissing then .error (.missingLocation .arithmetic) else .ok ()) <|
    registry.reuse (registry.arithmetics.lookup location) <|
      registry.add location .arithmetic fun id r =>
        { r with arithmetics := (location, id) :: r.arithmetics }

def createConstant (registry : Registry) (q : Qualifier) : Answer :=
  registry.guarded (if registry.lattice.contains q then .ok () else .error (.foreignQualifier q)) <|
    registry.reuse (registry.constants.lookup q) <|
      registry.add .missing (.constant q) fun id r => { r with constants := (q, id) :: r.constants }

def createExistential (registry : Registry) (potential alternative : SlotId) : Answer :=
  registry.guarded (do
      let _ ← registry.requireVariable potential
      let _ ← registry.requireVariable alternative) <|
    registry.reuse (registry.existentials.lookup (potential, alternative)) <|
      registry.add .missing (.existential potential alternative) fun id r =>
        { r with existentials := ((potential, alternative), id) :: r.existentials }

def createCombine (registry : Registry) (receiver declared : SlotId) : Answer :=
  registry.guarded (do
      let _ ← registry.slot receiver
      let _ ← registry.slot declared) <|
    registry.reuse (registry.combines.lookup (receiver, declared)) <|
      registry.add .missing (.combine receiver declared) fun id r =>
        { r with combines := ((receiver, declared), id) :: r.combines }

-- A slot merged with itself is linked once.
def mergeLinks (left right id : SlotId) : Links :=
  if right = left then [(left, id)] else [(left, id), (right, id)]

def createLub (registry : Registry) (left right : SlotId) : Answer :=
  registry.guarded (do
      let _ ← registry.slot left
      let _ ← registry.slot right) <|
    registry.reuse (registry.lubs.lookup (left, right)) <|
      registry.add .missing (.leastUpperBound left right) fun id r =>
        { r with
          lubs := ((left, right), id) :: r.lubs
          merges := r.merges ++ mergeLinks left right id }

-- The constants of all qualifiers in their order, as far as there are numbers left.
def createConstants : Registry → List Qualifier → Except SlotError Unit × Registry
  | registry, [] => (.ok (), registry)
  | registry, q :: rest =>
      match registry.createConstant q with
      | (.error e, after) => (.error e, after)
      | (.ok _, after) => after.createConstants rest

def storeConstants (registry : Registry) : Except SlotError Unit × Registry :=
  registry.createConstants registry.lattice.qualifiers

-- A constant is annotated with its name, any other slot with its placeholder.
def annotOf (registry : Registry) (id : SlotId) : Except SlotError Annot := do
  let slot ← registry.slot id
  match slot.constant? with
  | some q => return .named (registry.lattice.name q)
  | none => return .placeholder id

def equivalentAnnot (registry : Registry) (q : Qualifier) :
    Except SlotError Annot × Registry :=
  let (answer, after) := registry.createConstant q
  (answer.map .placeholder, after)

def resolve (registry : Registry) (annot : Annot) : Answer :=
  match annot with
  | .placeholder id => ((registry.slot id).map (·.id), registry)
  | .named name =>
      match registry.lattice.find? name with
      | some q => registry.createConstant q
      | none => (.error (.unknownAnnot annot.text), registry)

def resolveText (registry : Registry) (text : String) : Answer :=
  match Annot.parse text with
  | some annot => registry.resolve annot
  | none => (.error (.unknownAnnot text), registry)

end Registry

end Qualify
