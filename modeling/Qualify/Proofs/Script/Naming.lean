import Qualify.Proofs.Script.Decoding

namespace Qualify

theorem SlotId.ofNumber?_eq_some_iff {number : Nat} {id : SlotId} :
    ofNumber? number = some id ↔ number = id.number := by
  have hlt := id.index_lt
  unfold ofNumber? ofIndex? SlotId.number
  constructor
  · intro h
    split at h
    · cases h
    · next hzero =>
        split at h
        · cases h
          exact (Nat.sub_add_cancel (Nat.pos_of_ne_zero hzero)).symm
        · cases h
  · rintro rfl
    simp [hlt]

namespace Script

-- A symbol names a slot by its number. The numeral may have leading zeros and a plus sign.
def NamesSlot (name : String) (id : SlotId) : Prop :=
  ∃ digits, Text.IsNumeral digits ∧ Text.numberOf digits = id.number ∧
    (name = "slot" ++ String.ofList digits ∨ name = "slot" ++ String.ofList ('+' :: digits))

-- The number behind `slot` is read like any other: a sign in front and leading zeros are
-- accepted.
theorem slotOfSymbol?_eq_some_iff {name : String} {id : SlotId} :
    slotOfSymbol? name = some id ↔ NamesSlot name id := by
  have hlt := id.index_lt
  constructor
  · intro h
    obtain ⟨text, rfl⟩ : ∃ text : String, name = "slot" ++ text := by
      by_contra hother
      have hforeign : Foreign name := fun text htext => absurd ⟨text, htext⟩ hother
      cases h.symm.trans (slotOfSymbol?_of_foreign hforeign)
    rw [slotOfSymbol?_append] at h
    obtain ⟨number, hnumber, hid⟩ := Option.bind_eq_some_iff.mp h
    obtain ⟨digits, hnumeral, htext, rfl, -⟩ := Text.readNat_eq_some_iff.mp hnumber
    refine ⟨digits, hnumeral, SlotId.ofNumber?_eq_some_iff.mp hid, ?_⟩
    rcases htext with htext | htext
    · exact .inl (by rw [← htext, String.ofList_toList])
    · exact .inr (by rw [← htext, String.ofList_toList])
  · rintro ⟨digits, hnumeral, hnumber, hname⟩
    have hread : ∀ text, (text = digits ∨ text = '+' :: digits) →
        slotOfSymbol? ("slot" ++ String.ofList text) = some id := by
      intro text htext
      have hbound : id.number < 0x100000000 := by
        unfold SlotId.number
        omega
      rw [slotOfSymbol?_append, String.toList_ofList, Text.readNat32,
        Text.readNat_eq_some_iff.mpr ⟨digits, hnumeral, htext, hnumber, hbound⟩]
      exact SlotId.ofNumber?_eq_some_iff.mpr rfl
    rcases hname with rfl | rfl
    · exact hread digits (.inl rfl)
    · exact hread ('+' :: digits) (.inr rfl)

def LastValue (values : List (String × Int64)) (id : SlotId) (value : Int64) : Prop :=
  ∃ earlier name later, values = earlier ++ (name, value) :: later ∧ NamesSlot name id ∧
    ∀ entry ∈ later, ¬NamesSlot entry.1 id

theorem lastFor_slotValues (values : List (String × Int64)) (id : SlotId) :
    (Entries.lastFor Prod.fst id (values.filterMap slotValue?)).map Prod.snd =
      (Entries.lastFor (fun entry => slotOfSymbol? entry.1) (some id) values).map
        fun entry => entry.2.toInt.toNat := by
  induction values with
  | nil => rfl
  | cons entry rest ih =>
      rw [Entries.lastFor_cons, Option.map_or, ← ih]
      cases hslot : slotOfSymbol? entry.1 with
      | none => simp [slotValue?, hslot]
      | some other =>
          have hvalue : slotValue? entry = some (other, entry.2.toInt.toNat) := by
            rw [slotValue?, hslot, Option.map_some]
          rw [List.filterMap_cons_some hvalue, Entries.lastFor_cons, Option.map_or]
          by_cases heq : other = id <;> simp [heq]

theorem lastFor_eq_some_iff_lastValue {values : List (String × Int64)} {id : SlotId}
    {value : Int64} :
    (∃ name, Entries.lastFor (fun entry => slotOfSymbol? entry.1) (some id) values =
      some (name, value)) ↔ LastValue values id value := by
  simp only [Entries.lastFor_eq_some_iff, LastValue, ← slotOfSymbol?_eq_some_iff]
  constructor
  · rintro ⟨name, earlier, later, heq, hname, hlater⟩
    exact ⟨earlier, name, later, heq, hname, hlater⟩
  · rintro ⟨earlier, name, later, heq, hname, hlater⟩
    exact ⟨name, earlier, later, heq, hname, hlater⟩

theorem contains_decoded_iff {values : List (String × Int64)} {id : SlotId} :
    (Solution.ofList (values.filterMap slotValue?)).contains id = true ↔
      ∃ entry ∈ values, NamesSlot entry.1 id := by
  rw [Solution.contains, Solution.get?_ofList, lastFor_slotValues, Option.isSome_map,
    ← Option.ne_none_iff_isSome, Ne, Entries.lastFor_eq_none_iff]
  simp [slotOfSymbol?_eq_some_iff]

-- A slot has the value of the last entry that names it, and every slot to be solved for has one.
-- The slots with a value are the ones to be solved for exactly when no entry names another slot.
theorem decode_keys_iff {script : Script} {lattice : Lattice} {values : List (String × Int64)}
    {solution : Solution} (hdecode : script.decode lattice values = .ok solution) :
    (∀ id q, solution.get? id = some q ↔
      ∃ value : Int64, LastValue values id value ∧ value.toInt = q) ∧
    (∀ id ∈ script.slots, solution.contains id = true) ∧
    ((∀ id, solution.contains id = true ↔ id ∈ script.slots) ↔
      ∀ entry ∈ values, ∀ id, NamesSlot entry.1 id → id ∈ script.slots) := by
  obtain ⟨hrange, rfl, hslots⟩ := decode_eq_ok_iff.mp hdecode
  refine ⟨fun id q => ?_, hslots, ?_⟩
  · rw [Solution.get?_ofList, lastFor_slotValues, Option.map_eq_some_iff]
    constructor
    · rintro ⟨entry, hlast, rfl⟩
      obtain ⟨hmem, hslot⟩ := Entries.mem_of_lastFor hlast
      obtain ⟨hnonneg, -⟩ := hrange entry hmem (by rw [hslot]; rfl)
      exact ⟨entry.2, lastFor_eq_some_iff_lastValue.mp ⟨entry.1, hlast⟩,
        (Int.toNat_of_nonneg hnonneg).symm⟩
    · rintro ⟨value, hlast, hvalue⟩
      obtain ⟨name, hlast⟩ := lastFor_eq_some_iff_lastValue.mpr hlast
      exact ⟨(name, value), hlast, by rw [hvalue, Int.toNat_natCast]⟩
  · constructor
    · intro hkeys entry hentry id hnames
      exact (hkeys id).mp (contains_decoded_iff.mpr ⟨entry, hentry, hnames⟩)
    · intro hdeclared id
      refine ⟨fun hcontains => ?_, hslots id⟩
      obtain ⟨entry, hentry, hnames⟩ := contains_decoded_iff.mp hcontains
      exact hdeclared entry hentry id hnames

section Sample

open Registry

def flow : List Constraint :=
  [.relation .subtype sourceSlot sinkSlot .missing]

theorem decode_flow {values : List (String × Int64)} (hrange : InRange taint.lattice.size values)
    (hcontains : ∀ id ∈ [sourceSlot, sinkSlot],
      (Solution.ofList (values.filterMap slotValue?)).contains id = true) :
    ∃ script, ofConstraints taint flow .satisfy = .ok script ∧
      script.slots = [sourceSlot, sinkSlot] ∧
      script.decode taint.lattice values = .ok (.ofList (values.filterMap slotValue?)) := by
  obtain ⟨script, hscript⟩ : ∃ script, ofConstraints taint flow .satisfy = .ok script := ⟨_, rfl⟩
  have hslots : script.slots = [sourceSlot, sinkSlot] := slots_ofConstraints hscript
  exact ⟨script, hscript, hslots, decode_eq_ok_iff.mpr ⟨hrange, rfl, hslots ▸ hcontains⟩⟩

def respelledValues : List (String × Int64) :=
  [("slot3", 1), ("exists9", 1), ("slot+4", 1), ("slot03", 0)]

theorem respelled_decode_keys_iff :
    ∃ script solution, ofConstraints taint flow .satisfy = .ok script ∧
      script.decode taint.lattice respelledValues = .ok solution ∧
      solution.get? sourceSlot = some 0 ∧ solution.get? sinkSlot = some 1 ∧
      ∀ id, solution.contains id = true ↔ id ∈ script.slots := by
  obtain ⟨script, hscript, hslots, hdecode⟩ := @decode_flow respelledValues (by decide) (by decide)
  obtain ⟨hget, -, hkeys⟩ := decode_keys_iff hdecode
  refine ⟨script, _, hscript, hdecode, (hget sourceSlot 0).mpr ?_, (hget sinkSlot 1).mpr ?_,
    hkeys.mpr ?_⟩
  · exact ⟨0, lastFor_eq_some_iff_lastValue.mp ⟨"slot03", by decide⟩, by decide⟩
  · exact ⟨1, lastFor_eq_some_iff_lastValue.mp ⟨"slot+4", by decide⟩, by decide⟩
  · intro entry hentry id hnames
    have hslot : ∀ entry ∈ respelledValues, ∀ id ∈ slotOfSymbol? entry.1,
        id ∈ [sourceSlot, sinkSlot] := by decide
    rw [hslots]
    exact hslot entry hentry id (slotOfSymbol?_eq_some_iff.mpr hnames)

def strayValues : List (String × Int64) :=
  [("slot1", 1), ("slot3", 1), ("slot4", 0), ("slot9", 0)]

def straySlot : SlotId := ⟨8, by decide⟩

-- Values of slots that the script does not declare get into the solution.
theorem stray_decoded :
    ∃ script solution, ofConstraints taint flow .satisfy = .ok script ∧
      script.decode taint.lattice strayValues = .ok solution ∧
      solution.get? taintedSlot = some 1 ∧ taintedSlot ∉ script.slots ∧
      solution.get? straySlot = some 0 ∧ straySlot ∉ script.slots := by
  obtain ⟨script, hscript, hslots, hdecode⟩ := @decode_flow strayValues (by decide) (by decide)
  refine ⟨script, _, hscript, hdecode, by decide, ?_, by decide, ?_⟩
  · rw [hslots]
    decide
  · rw [hslots]
    decide

end Sample

end Script

end Qualify
