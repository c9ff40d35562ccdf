import Qualify.Proofs.Inference.External
import Qualify.Proofs.Script.Layout
import Qualify.Proofs.Slot.Annotation
import Qualify.Proofs.Text.Numeral

namespace Qualify

namespace Reply

-- The ways to write an integer of 64 bits. The numeral after a minus has to fit by itself.
inductive WritesInt (number : Int) : List Token → Prop
  | numeral {digits : List Char} (h : Text.IsNumeral digits)
      (hnumber : number = Text.numberOf digits) (hlt : number < 0x8000000000000000) :
      WritesInt number [.atom (String.ofList digits)]
  | signed {digits : List Char} (h : Text.IsNumeral digits)
      (hnumber : number = -(Text.numberOf digits : Int)) (hle : -0x8000000000000000 ≤ number) :
      WritesInt number [.atom (String.ofList ('-' :: digits))]
  | negated {digits : List Char} (h : Text.IsNumeral digits)
      (hnumber : number = -(Text.numberOf digits : Int))
      (hlt : Text.numberOf digits < 0x8000000000000000) :
      WritesInt number [.opening, .atom "-", .atom (String.ofList digits), .closing]

-- The three ways to write a number; only the last goes through a negation, and a digit string is
-- never the least word.
theorem readValue_writes {number : Int} {tokens : List Token} (h : WritesInt number tokens) :
    ∃ value : Int64, value.toInt = number ∧
      ∀ rest, readValue (tokens ++ rest) = some (.ok value, rest) := by
  cases h with
  | numeral h hnumber hlt =>
      have hvalue := Int64.toInt_ofInt_of_le (by omega) hlt
      refine ⟨Int64.ofInt number, hvalue, fun rest => ?_⟩
      simp [readValue, Text.readInt64_numeral h (hvalue.trans hnumber)]
  | signed h hnumber hle =>
      have hvalue := Int64.toInt_ofInt_of_le hle (by omega)
      refine ⟨Int64.ofInt number, hvalue, fun rest => ?_⟩
      simp [readValue, Text.readInt64_negative h (hvalue.trans hnumber)]
  | @negated digits h hnumber hlt =>
      have hvalue : (Int64.ofInt (Text.numberOf digits)).toInt = Text.numberOf digits :=
        Int64.toInt_ofInt_of_le (by omega) (by omega)
      have hnegate : negate (Int64.ofInt (Text.numberOf digits)) = .ok (Int64.ofInt number) := by
        have hleast : Int64.ofInt (Text.numberOf digits) ≠ Int64.minValue := by
          intro heq
          have hnegative := hvalue.symm.trans (congrArg Int64.toInt heq)
          rw [Int64.toInt_minValue] at hnegative
          omega
        rw [negate, if_neg hleast, hnumber, Int64.ofInt_neg]
      refine ⟨Int64.ofInt number, Int64.toInt_ofInt_of_le (by omega) (by omega), fun rest => ?_⟩
      simp [readValue, Text.readInt64_numeral h hvalue, hnegate]

inductive Definition where
  | integer (name : String) (number : Int)
  | boolean (name : String) (holds : Bool)
deriving DecidableEq, Repr

namespace Definition

def integer? : Definition → Option (String × Int)
  | integer name number => some (name, number)
  | boolean _ _ => none

-- `(define-fun NAME () SORT VALUE)`
def tokens (name sort : String) (value : List Token) : List Token :=
  [.opening, .atom "define-fun", .atom name, .opening, .closing, .atom sort] ++ value ++ [.closing]

inductive Writes : Definition → List Token → Prop
  | integer {number : Int} {value : List Token} (name : String) (h : WritesInt number value) :
      Writes (.integer name number) (tokens name "Int" value)
  | boolean (name : String) (holds : Bool) :
      Writes (.boolean name holds) (tokens name "Bool" [.atom (if holds then "true" else "false")])

inductive WritesAll : List Definition → List Token → Prop
  | nil : WritesAll [] []
  | cons {definition : Definition} {definitions : List Definition} {tokens others : List Token}
      (h : definition.Writes tokens) (hrest : WritesAll definitions others) :
      WritesAll (definition :: definitions) (tokens ++ others)

end Definition

def PrintsModel (definitions : List Definition) (output : String) : Prop :=
  ∃ tokens, Definition.WritesAll definitions tokens ∧
    Prints "sat" (.opening :: tokens ++ [.closing]) output

def numbers (values : List (String × Int64)) : List (String × Int) :=
  values.map fun entry => (entry.1, entry.2.toInt)

theorem readModel_skip {token : Token} (h : token ≠ .atom "define-fun") (rest : List Token) :
    readModel (token :: rest) = readModel rest := by
  rw [readModel]
  rintro rfl
  exact h rfl

theorem readModel_integer {name : String} {value : Int64} {body others : List Token}
    (h : readValue body = some (.ok value, others)) :
    readModel (.atom "define-fun" :: .atom name :: .opening :: .closing :: .atom "Int" :: body) =
      (readModel others).map ((name, value) :: ·) := by
  rw [readModel, if_pos rfl]
  split
  · next found hfound =>
      cases h.symm.trans hfound
      cases readModel others <;> rfl
  · next hnone => cases h.symm.trans hnone

-- An integer definition adds its value; a Boolean one has a sort the reader skips, body and all.
theorem readModel_writes {definition : Definition} {tokens : List Token}
    (h : definition.Writes tokens) :
    ∃ values, numbers values = definition.integer?.toList ∧
      ∀ rest, readModel (tokens ++ rest) = (readModel rest).map (values ++ ·) := by
  cases h with
  | integer name h =>
      obtain ⟨value, hvalue, hread⟩ := readValue_writes h
      refine ⟨[(name, value)], by simp [numbers, Definition.integer?, hvalue], fun rest => ?_⟩
      simp only [Definition.tokens, List.cons_append, List.nil_append, List.append_assoc]
      rw [readModel_skip (by decide), readModel_integer (hread _), readModel_skip (by decide)]
  | boolean name holds =>
      have hvalue : Token.atom (if holds then "true" else "false") ≠ .atom "define-fun" := by
        cases holds <;> decide
      refine ⟨[], rfl, fun rest => ?_⟩
      simp only [Definition.tokens, List.cons_append, List.nil_append]
      rw [readModel_skip (by decide), readModel, if_neg (by decide), readModel_skip hvalue,
        readModel_skip (by decide)]
      exact (congrFun Except.map_id _).symm

-- By induction on the definitions, the reader being told what is left to read.
theorem readModel_writesAll {definitions : List Definition} {tokens : List Token}
    (h : Definition.WritesAll definitions tokens) :
    ∃ values, numbers values = definitions.filterMap Definition.integer? ∧
      ∀ rest, readModel (tokens ++ rest) = (readModel rest).map (values ++ ·) := by
  induction h with
  | nil => exact ⟨[], rfl, fun rest => (congrFun Except.map_id _).symm⟩
  | @cons definition definitions _ _ h _ ih =>
      obtain ⟨first, hfirst, hread⟩ := readModel_writes h
      obtain ⟨values, hvalues, hreads⟩ := ih
      refine ⟨first ++ values, ?_, fun rest => ?_⟩
      · rw [numbers, List.map_append, ← numbers, ← numbers, hfirst, hvalues]
        cases h <;> rfl
      · rw [List.append_assoc, hread, hreads]
        cases readModel rest with
        | error e => rfl
        | ok others => simp [Except.map]

theorem parse_model {definitions : List Definition} {output : String}
    (h : PrintsModel definitions output) :
    ∃ values, parse output = .ok (.sat values) ∧
      numbers values = definitions.filterMap Definition.integer? := by
  obtain ⟨tokens, hwrites, hprints⟩ := h
  obtain ⟨values, hvalues, hread⟩ := readModel_writesAll hwrites
  refine ⟨values, ?_, hvalues⟩
  rw [parse_sat hprints, List.cons_append, readModel_skip (by decide), hread,
    readModel_skip (by decide), readModel]
  simp [Except.map]

end Reply

namespace Script

theorem slotOfSymbol?_append (text : String) :
    slotOfSymbol? ("slot" ++ text) = (Text.readNat32 text.toList).bind SlotId.ofNumber? := by
  rw [slotOfSymbol?, String.toList_append, ← symbolOpening]
  simp

theorem slotOfSymbol?_slotSymbol (id : SlotId) : slotOfSymbol? (Term.slotSymbol id) = some id :=
  (slotOfSymbol?_append id.text).trans id.read_text

-- Names like `slots` or `slot99999999999` are symbols of something else.
def Foreign (name : String) : Prop :=
  ∀ text : String, name = "slot" ++ text → Text.readNat32 text.toList = none

theorem slotOfSymbol?_of_foreign {name : String} (h : Foreign name) : slotOfSymbol? name = none := by
  by_cases hopening : symbolOpening.isPrefixOf name.toList = true
  · obtain ⟨rest, hrest⟩ := List.isPrefixOf_iff_prefix.mp hopening
    have hname : name = "slot" ++ String.ofList rest := by
      rw [← String.toList_inj, ← hrest]
      simp [symbolOpening]
    rw [hname, slotOfSymbol?_append, h _ hname, Option.bind_none]
  · exact if_neg hopening

section Printed

open Reply

variable {slots : List SlotId} {choice : SlotId → Qualifier} {others : List (String × Int)}

-- The integers of a model that gives a choice of qualifiers for the slots, in any order.
def Assigns (slots : List SlotId) (choice : SlotId → Qualifier) (others : List (String × Int))
    (entries : List (String × Int)) : Prop :=
  entries.Perm (slots.map (fun id => (Term.slotSymbol id, (choice id : Int))) ++ others)

def slotNumber? (entry : String × Int) : Option (SlotId × Qualifier) :=
  (slotOfSymbol? entry.1).map fun id => (id, entry.2.toNat)

theorem perm_slotValues (hothers : ∀ entry ∈ others, Foreign entry.1)
    {values : List (String × Int64)} (h : Assigns slots choice others (numbers values)) :
    (values.filterMap slotValue?).Perm (slots.map fun id => (id, choice id)) := by
  have hvalues : (numbers values).filterMap slotNumber? = values.filterMap slotValue? :=
    List.filterMap_map
  have hslots : (slots.map fun id => (Term.slotSymbol id, (choice id : Int))).filterMap slotNumber? =
      slots.map fun id => (id, choice id) := by
    rw [List.filterMap_map, ← List.filterMap_eq_map]
    refine List.filterMap_congr fun id _ => ?_
    simp [slotNumber?, slotOfSymbol?_slotSymbol]
  have hskip : others.filterMap slotNumber? = [] := by
    refine List.filterMap_eq_nil_iff.mpr fun entry hentry => ?_
    rw [slotNumber?, slotOfSymbol?_of_foreign (hothers entry hentry), Option.map_none]
  have hperm := h.filterMap slotNumber?
  rwa [List.filterMap_append, hvalues, hslots, hskip, List.append_nil] at hperm

theorem inRange_of_assigns {size : Nat} (hchoice : ∀ id ∈ slots, choice id < size)
    (hothers : ∀ entry ∈ others, Foreign entry.1) {values : List (String × Int64)}
    (h : Assigns slots choice others (numbers values)) : InRange size values := by
  intro entry hentry hslot
  have hmem : (entry.1, entry.2.toInt) ∈ numbers values :=
    List.mem_map_of_mem (f := fun entry => (entry.1, entry.2.toInt)) hentry
  rcases List.mem_append.mp (h.mem_iff.mp hmem) with hmem | hmem
  · obtain ⟨id, hid, heq⟩ := List.mem_map.mp hmem
    have hlt := hchoice id hid
    rw [← (Prod.mk.inj heq).2]
    exact ⟨Int.natCast_nonneg _, Int.ofNat_lt.mpr hlt⟩
  · rw [slotOfSymbol?_of_foreign (hothers _ hmem)] at hslot
    cases hslot

-- A model that is printed for a choice of qualifiers is read as that choice, however it is laid
-- out and whatever else is defined in it.
theorem decode_printed (script : Script) {lattice : Lattice}
    (hchoice : ∀ id ∈ script.slots, choice id < lattice.size)
    (hothers : ∀ entry ∈ others, Foreign entry.1) {definitions : List Definition}
    (hassigns : Assigns script.slots choice others (definitions.filterMap Definition.integer?))
    {output : String} (hprints : PrintsModel definitions output) :
    ∃ values solution, parse output = .ok (.sat values) ∧
      numbers values = definitions.filterMap Definition.integer? ∧
      script.decode lattice values = .ok solution ∧ solution.Sorted ∧
      ∀ id, solution.get? id = if id ∈ script.slots then some (choice id) else none := by
  obtain ⟨values, hparse, hvalues⟩ := parse_model hprints
  rw [← hvalues] at hassigns
  have hperm := perm_slotValues hothers hassigns
  have hagree : ∀ pair ∈ values.filterMap slotValue?, pair.2 = choice pair.1 := by
    intro pair hpair
    obtain ⟨id, -, rfl⟩ := List.mem_map.mp (hperm.mem_iff.mp hpair)
    rfl
  have hkeys : ∀ id, id ∈ (values.filterMap slotValue?).map Prod.fst ↔ id ∈ script.slots := by
    intro id
    rw [(hperm.map Prod.fst).mem_iff]
    simp
  have hget : ∀ id, (Solution.ofList (values.filterMap slotValue?)).get? id =
      if id ∈ script.slots then some (choice id) else none := by
    intro id
    rw [Solution.ofList, Solution.get?_foldl_insert_of_agree hagree]
    simp only [hkeys]
    rfl
  refine ⟨values, _, hparse, hvalues, decode_eq_ok_iff.mpr
    ⟨inRange_of_assigns hchoice hothers hassigns, rfl, fun id hid => ?_⟩,
    Solution.sorted_ofList _, hget⟩
  rw [Solution.contains, hget, if_pos hid, Option.isSome_some]

def flowModel : List Definition :=
  [.boolean "exists3" true, .integer "slot4" 1, .integer "slots" (-7), .integer "slot3" 0]

def flowTokens : List Token :=
  Definition.tokens "exists3" "Bool" [.atom "true"] ++
    (Definition.tokens "slot4" "Int" [.atom "01"] ++
      (Definition.tokens "slots" "Int" [.opening, .atom "-", .atom "7", .closing] ++
        (Definition.tokens "slot3" "Int" [.atom "0"] ++ [])))

def flowOutput : String :=
  let model : List Token := .opening :: flowTokens ++ [.closing]
  String.ofList (['\n', ' ', '\n'] ++ ("sat".toList ++ [' ', '\r'] ++
    '\n' :: model.flatMap (Token.spaced ["slot4"])))

theorem flowOutput_prints : PrintsModel flowModel flowOutput := by
  have hone : Text.IsNumeral ['0', '1'] := by decide
  have hseven : Text.IsNumeral ['7'] := by decide
  have hzero : Text.IsNumeral ['0'] := by decide
  refine ⟨flowTokens, ?_, ['\n', ' ', '\n'], [' ', '\r'], _, String.toList_ofList,
    List.all_eq_true.mp (by decide), List.all_eq_true.mp (by decide), by decide,
    Token.layout_spaced ["slot4"] (by decide)⟩
  exact .cons (.boolean _ true)
    (.cons (.integer _ (.numeral hone (by decide) (by decide)))
      (.cons (.integer _ (.negated hseven (by decide) (by decide)))
        (.cons (.integer _ (.numeral hzero (by decide) (by decide))) .nil)))

def flowChoice (id : SlotId) : Qualifier :=
  if id = Registry.sinkSlot then 1 else 0

theorem flowModel_decode_printed :
    ∃ script values solution, ofConstraints Registry.taint Cnf.taintFlow .satisfy = .ok script ∧
      parse flowOutput = .ok (.sat values) ∧
      numbers values = [("slot4", 1), ("slots", -7), ("slot3", 0)] ∧
      script.decode Registry.taint.lattice values = .ok solution ∧
      solution.get? Registry.sourceSlot = some 0 ∧ solution.get? Registry.sinkSlot = some 1 := by
  obtain ⟨script, hscript⟩ :
      ∃ script, ofConstraints Registry.taint Cnf.taintFlow .satisfy = .ok script := ⟨_, rfl⟩
  have hslots : script.slots = [Registry.sourceSlot, Registry.sinkSlot] :=
    slots_ofConstraints hscript
  have hchoice : ∀ id ∈ script.slots, flowChoice id < Registry.taint.lattice.size := by
    rw [hslots]
    decide
  have hforeign : ∀ entry ∈ [(("slots", -7) : String × Int)], Foreign entry.1 := by
    rw [List.forall_mem_singleton]
    intro text htext
    have hlist : ['s'] = text.toList := by
      simpa using congrArg String.toList htext
    rw [← hlist]
    rfl
  have hassigns : Assigns script.slots flowChoice [("slots", -7)]
      (flowModel.filterMap Definition.integer?) := by
    rw [hslots]
    unfold Assigns
    decide
  obtain ⟨values, solution, hparse, hvalues, hdecode, -, hget⟩ :=
    decode_printed script hchoice hforeign hassigns flowOutput_prints
  refine ⟨script, values, solution, hscript, hparse, hvalues, hdecode, ?_, ?_⟩
  · rw [hget, hslots]
    decide
  · rw [hget, hslots]
    decide

end Printed

end Script

end Qualify
