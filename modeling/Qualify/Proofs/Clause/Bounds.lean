import Qualify.Proofs.Clause.Meaning

-- When there is room for the clauses of a constraint.
namespace Qualify

namespace Clause

theorem mem_of_mem_picked {α : Type} {lists : List (List α)} {a : α} (h : a ∈ picked lists) :
    ∃ list ∈ lists, a ∈ list := by
  unfold picked at h
  split at h
  · obtain ⟨list, hlist, ha⟩ := List.mem_flatMap.mp h
    exact ⟨list, (List.takeWhile_sublist _).mem hlist, List.mem_of_mem_take ha⟩
  · exact List.mem_flatten.mp h

theorem all_isNegatable_of_within {count : Nat} (hcount : count < 0x80000000)
    {clauses : List Clause} (h : Within count clauses) :
    (picked clauses).all Literal.isNegatable = true := by
  refine List.all_eq_true.mpr fun l hl => ?_
  obtain ⟨clause, hclause, hmem⟩ := mem_of_mem_picked hl
  refine Literal.isWord_of_isWithin hcount ?_
  rw [Literal.isWithin_neg]
  exact h clause hclause l hmem

theorem refutations_of_isEmpty {clauses : List Clause} (h : clauses.any (·.isEmpty) = true) :
    refutations clauses = [] := by
  induction clauses with
  | nil => cases h
  | cons clause rest ih =>
      rw [List.any_cons, Bool.or_eq_true] at h
      rcases h with hempty | h
      · rw [List.isEmpty_iff.mp hempty]
        rfl
      · simp [refutations, ih h]

-- Where there are refutations at all, each literal has been looked at.
theorem words_refutations {clauses : List Clause}
    (h : (picked clauses).all Literal.isNegatable = true) : Words (refutations clauses) := by
  intro refutation hrefutation l hl
  unfold picked at h
  split at h
  · next hempty =>
      rw [refutations_of_isEmpty hempty] at hrefutation
      cases hrefutation
  · obtain ⟨clause, hclause, hmem⟩ := exists_of_mem_refutations hrefutation hl
    rw [← Literal.isNegatable_neg]
    exact List.all_eq_true.mp h (-l) (List.mem_flatten.mpr ⟨clause, hclause, hmem⟩)

theorem words_implying {assumptions conclusions : List Clause}
    (h : (picked assumptions).all Literal.isNegatable = true) (hwords : Words conclusions) :
    Words (implying assumptions conclusions) := by
  refine List.forall_mem_flatMap.mpr fun refutation hrefutation =>
    List.forall_mem_map.mpr fun clause hclause => List.forall_mem_append.mpr ⟨?_, ?_⟩
  · exact words_refutations h refutation hrefutation
  · exact hwords clause hclause

end Clause

namespace Constraint

section Success

variable {registry : Registry} {numbering : Numbering}

-- A list of parts is translated part by part, and each extended clause is checked before the next
-- part is looked at.
theorem clausesOfAll_cons_eq_ok {ending : Clause} {c : Constraint} {rest : List Constraint}
    {all : List Clause} :
    clausesOfAll registry numbering ending (c :: rest) = .ok all ↔ ∃ clauses others,
      clausesWith registry numbering c = .ok clauses ∧ Words (clauses.map (· ++ ending)) ∧
        clausesOfAll registry numbering ending rest = .ok others ∧
        all = clauses.map (· ++ ending) ++ others := by
  rw [clausesOfAll, Except.bind_eq_ok]
  refine exists_congr fun clauses => ?_
  rw [exists_and_left]
  refine and_congr_right fun _ => ?_
  rw [Except.bind_eq_ok]
  simp only [Except.mapError_eq_ok, Clause.checked_eq_ok]
  constructor
  · rintro ⟨_, ⟨hwords, rfl⟩, h⟩
    obtain ⟨others, hothers, rfl⟩ := Except.bind_return_eq_ok.mp h
    exact ⟨others, hwords, hothers, rfl⟩
  · rintro ⟨others, hwords, hothers, rfl⟩
    exact ⟨_, ⟨hwords, rfl⟩, Except.bind_return_eq_ok.mpr ⟨others, hothers, rfl⟩⟩

theorem clausesOfAll_isOk_iff {ending : Clause} {parts : List Constraint} :
    (∃ all, clausesOfAll registry numbering ending parts = .ok all) ↔
      ∀ part ∈ parts, ∃ clauses, clausesWith registry numbering part = .ok clauses ∧
        Words (clauses.map (· ++ ending)) := by
  induction parts with
  | nil => simp [clausesOfAll]
  | cons c rest ih =>
      rw [List.forall_mem_cons, ← ih]
      simp only [clausesOfAll_cons_eq_ok]
      constructor
      · rintro ⟨_, clauses, others, hclauses, hwords, hothers, -⟩
        exact ⟨⟨clauses, hclauses, hwords⟩, others, hothers⟩
      · rintro ⟨⟨clauses, hclauses, hwords⟩, others, hothers⟩
        exact ⟨_, clauses, others, hclauses, hwords, hothers, rfl⟩

theorem idealClausesOfAll_of_clausesOfAll {parts : List Constraint} {all : List Clause}
    (h : clausesOfAll registry numbering [] parts = .ok all) :
    idealClausesOfAll registry numbering parts = .ok all := by
  have hcut := clausesOfAll_cutShort
    (fun part (_ : part ∈ parts) => clausesWith_cutShort registry numbering part) []
  simp only [List.append_nil, List.map_id', bind_pure] at hcut
  exact hcut.eq_of_ok h

theorem clausesWith_relation_eq_ok {kind : Relation} {first second : SlotId} {location : Location}
    {all : List Clause} :
    clausesWith registry numbering (relation kind first second location) = .ok all ↔
      ∃ route, registry.relationRoute kind first second location = .ok route ∧
        Words (numbering.relationClauses registry.lattice kind route) ∧
        all = numbering.relationClauses registry.lattice kind route := by
  simp only [clausesWith, Except.bind_eq_ok, Except.mapError_eq_ok, Clause.checked_eq_ok]

theorem clausesWith_function_eq_ok {table : TableFunction} {left right result : SlotId}
    {location : Location} {all : List Clause} :
    clausesWith registry numbering (function table left right result location) = .ok all ↔
      ∃ operands, registry.functionRoute table left right result location = .ok operands ∧
        Words (numbering.functionClauses registry.lattice table result operands) ∧
        all = numbering.functionClauses registry.lattice table result operands := by
  simp only [clausesWith, Except.bind_eq_ok, Except.mapError_eq_ok, Clause.checked_eq_ok]

theorem clausesWith_existential_eq_ok {potential : SlotId} {present absent : List Constraint}
    {location : Location} {all : List Clause} :
    clausesWith registry numbering (existential potential present absent location) = .ok all ↔
      numbering.presence? potential = .ok (numbering.presence potential) ∧ ∃ ps as,
        clausesOfAll registry numbering [-numbering.presence potential] present = .ok ps ∧
        clausesOfAll registry numbering [numbering.presence potential] absent = .ok as ∧
        all = ps ++ as := by
  rw [clausesWith, Numbering.presence?]
  split
  · rw [← Except.bind₂_return_eq_ok, eq_self, true_and]
    rfl
  · refine iff_of_false ?_ fun h => by cases h.1
    intro h
    cases h

theorem clausesWith_implication_eq_ok {assumptions : List Constraint} {conclusion : Constraint}
    {location : Location} {all : List Clause} :
    clausesWith registry numbering (implication assumptions conclusion location) = .ok all ↔
      ∃ as cs, clausesOfAll registry numbering [] assumptions = .ok as ∧
        clausesWith registry numbering conclusion = .ok cs ∧
        (Clause.picked as).all Literal.isNegatable = true ∧ Clause.HasRoom as cs ∧
        all = Clause.implying as cs := by
  simp only [clausesWith, Except.bind_eq_ok, distributed_eq_ok, and_assoc, exists_and_left]

theorem words_of_clausesOfAll {ending : Clause} {parts : List Constraint} {all : List Clause}
    (h : clausesOfAll registry numbering ending parts = .ok all) : Words all := by
  induction parts generalizing all with
  | nil =>
      cases h
      exact List.forall_mem_nil _
  | cons c rest ih =>
      obtain ⟨clauses, others, -, hwords, hothers, rfl⟩ := clausesOfAll_cons_eq_ok.mp h
      exact List.forall_mem_append.mpr ⟨hwords, ih hothers⟩

-- Clauses that have been made consist of words.
theorem words_of_clausesWith (c : Constraint) {clauses : List Clause}
    (h : clausesWith registry numbering c = .ok clauses) : Words clauses := by
  induction c generalizing clauses with
  | alwaysTrue =>
      cases h
      exact List.forall_mem_nil _
  | alwaysFalse =>
      cases h
      exact List.forall_mem_singleton.mpr (List.forall_mem_nil _)
  | relation kind first second location =>
      obtain ⟨route, -, hwords, rfl⟩ := clausesWith_relation_eq_ok.mp h
      exact hwords
  | function table left right result location =>
      obtain ⟨operands, -, hwords, rfl⟩ := clausesWith_function_eq_ok.mp h
      exact hwords
  | preference subject goal q weight location => cases h
  | existential potential present absent location =>
      obtain ⟨-, ps, as, hps, has, rfl⟩ := clausesWith_existential_eq_ok.mp h
      exact List.forall_mem_append.mpr ⟨words_of_clausesOfAll hps, words_of_clausesOfAll has⟩
  | implication assumptions conclusion location ihassumptions ihconclusion =>
      obtain ⟨as, cs, -, hcs, hnegatable, -, rfl⟩ := clausesWith_implication_eq_ok.mp h
      exact Clause.words_implying hnegatable (ihconclusion hcs)

-- ... and there is a number for each potential slot in them.
theorem presence?_of_clausesWith (c : Constraint) {clauses : List Clause}
    (h : clausesWith registry numbering c = .ok clauses) :
    ∀ p, Visit.potential p ∈ c.visits → numbering.presence? p = .ok (numbering.presence p) := by
  have hparts : ∀ {parts : List Constraint} {ending : Clause} {all : List Clause},
      clausesOfAll registry numbering ending parts = .ok all →
      (∀ part ∈ parts, ∀ clauses, clausesWith registry numbering part = .ok clauses →
        ∀ p, Visit.potential p ∈ part.visits →
          numbering.presence? p = .ok (numbering.presence p)) →
      ∀ p, Visit.potential p ∈ visitsOfAll parts →
        numbering.presence? p = .ok (numbering.presence p) := by
    intro parts ending all hall hparts p hp
    rw [visitsOfAll_eq] at hp
    obtain ⟨part, hpart, hmem⟩ := List.mem_flatMap.mp hp
    obtain ⟨clauses, hclauses, -⟩ := clausesOfAll_isOk_iff.mp ⟨all, hall⟩ part hpart
    exact hparts part hpart clauses hclauses p hmem
  induction c generalizing clauses with
  | existential potential present absent location ihpresent ihabsent =>
      obtain ⟨hpotential, ps, as, hps, has, -⟩ := clausesWith_existential_eq_ok.mp h
      intro p hp
      rw [visits, List.mem_cons, List.mem_append] at hp
      rcases hp with hp | hp | hp
      · cases hp
        exact hpotential
      · exact hparts hps (fun part hpart _ => ihpresent part hpart) p hp
      · exact hparts has (fun part hpart _ => ihabsent part hpart) p hp
  | implication assumptions conclusion location ihassumptions ihconclusion =>
      obtain ⟨as, cs, has, hcs, -⟩ := clausesWith_implication_eq_ok.mp h
      intro p hp
      rw [visits, List.mem_append] at hp
      rcases hp with hp | hp
      · exact hparts has (fun part hpart _ => ihassumptions part hpart) p hp
      · exact ihconclusion hcs p hp
  | _ => simp [visits]

end Success

mutual

def implications : Constraint → List (List Constraint × Constraint)
  | existential _ present absent _ => implicationsOfAll present ++ implicationsOfAll absent
  | implication assumptions conclusion _ =>
      (assumptions, conclusion) :: (implicationsOfAll assumptions ++ implications conclusion)
  | _ => []

def implicationsOfAll : List Constraint → List (List Constraint × Constraint)
  | [] => []
  | c :: rest => implications c ++ implicationsOfAll rest

end

theorem implicationsOfAll_eq (constraints : List Constraint) :
    implicationsOfAll constraints = constraints.flatMap implications := by
  induction constraints with
  | nil => rfl
  | cons c rest ih => rw [implicationsOfAll, ih, List.flatMap_cons]

def HasRoom (registry : Registry) (numbering : Numbering) (c : Constraint) : Prop :=
  ∀ step ∈ c.implications,
    Clause.HasRoom ((idealClausesOfAll registry numbering step.1).toOption.getD [])
      ((idealClauses registry numbering step.2).toOption.getD [])

instance (registry : Registry) (numbering : Numbering) (c : Constraint) :
    Decidable (c.HasRoom registry numbering) :=
  inferInstanceAs (Decidable (∀ step ∈ c.implications,
    Clause.HasRoom ((idealClausesOfAll registry numbering step.1).toOption.getD [])
      ((idealClauses registry numbering step.2).toOption.getD [])))

section Room

variable {registry : Registry} {numbering : Numbering}

theorem hasRoom_existential_iff {potential : SlotId} {present absent : List Constraint}
    {location : Location} :
    HasRoom registry numbering (existential potential present absent location) ↔
      (∀ part ∈ present, part.HasRoom registry numbering) ∧
        ∀ part ∈ absent, part.HasRoom registry numbering := by
  rw [HasRoom, implications, List.forall_mem_append, implicationsOfAll_eq, implicationsOfAll_eq,
    List.forall_mem_flatMap, List.forall_mem_flatMap]
  rfl

theorem hasRoom_implication_iff {assumptions : List Constraint} {conclusion : Constraint}
    {location : Location} :
    HasRoom registry numbering (implication assumptions conclusion location) ↔
      Clause.HasRoom ((idealClausesOfAll registry numbering assumptions).toOption.getD [])
          ((idealClauses registry numbering conclusion).toOption.getD []) ∧
        (∀ part ∈ assumptions, part.HasRoom registry numbering) ∧
        conclusion.HasRoom registry numbering := by
  rw [HasRoom, implications, List.forall_mem_cons, List.forall_mem_append, implicationsOfAll_eq,
    List.forall_mem_flatMap]
  rfl

variable (hfits : numbering.Fits registry) (hwf : registry.WellFormed)
include hfits hwf

-- Where all numbers fit, nothing but the size of an implication can keep clauses from being made.
theorem clausesOfAll_isOk_iff_hasRoom {parts : List Constraint} {ending : Clause}
    (hending : Within numbering.count [ending])
    (hcovered : ∀ part ∈ parts, Covered numbering part)
    (h : ∀ part ∈ parts, (∃ clauses, clausesWith registry numbering part = .ok clauses) ↔
      (∀ visit ∈ part.visits, visit.succeeds registry = true) ∧
        part.HasRoom registry numbering) :
    (∃ all, clausesOfAll registry numbering ending parts = .ok all) ↔
      (∀ visit ∈ visitsOfAll parts, visit.succeeds registry = true) ∧
        ∀ part ∈ parts, part.HasRoom registry numbering := by
  rw [clausesOfAll_isOk_iff, visitsOfAll_eq, List.forall_mem_flatMap, ← forall₂_and]
  refine forall₂_congr fun part hpart => ?_
  rw [← h part hpart]
  refine exists_congr fun clauses => and_iff_left_of_imp fun hclauses => ?_
  have hwithin := idealClauses_within (hfits.bounded hwf) hwf part (hcovered part hpart)
    (idealClauses_of_clausesWith hclauses)
  refine List.forall_mem_map.mpr fun clause hclause => List.forall_mem_append.mpr ⟨?_, ?_⟩
  · exact hwithin.words hfits.count_lt clause hclause
  · exact hending.words hfits.count_lt ending List.mem_cons_self

-- By induction on the constraint: a leaf never runs out of room, since its literals lie within
-- the count, and only an implication asks for more.
theorem clausesWith_isOk_iff_hasRoom (c : Constraint) (hcovered : Covered numbering c) :
    (∃ clauses, clausesWith registry numbering c = .ok clauses) ↔
      (∀ visit ∈ c.visits, visit.succeeds registry = true) ∧ c.HasRoom registry numbering := by
  have hbounded := hfits.bounded hwf
  have hleaf : ∀ c : Constraint, c.implications = [] → Covered numbering c →
      (∀ clauses, idealClauses registry numbering c = .ok clauses → Words clauses →
        ∃ same, clausesWith registry numbering c = .ok same) →
      ((∃ clauses, clausesWith registry numbering c = .ok clauses) ↔
        (∀ visit ∈ c.visits, visit.succeeds registry = true) ∧ c.HasRoom registry numbering) := by
    intro c hnone hcovered hwords
    have hroom : c.HasRoom registry numbering := by simp [HasRoom, hnone]
    rw [and_iff_left hroom, ← @idealClauses_isOk_iff registry numbering]
    constructor
    · rintro ⟨clauses, hclauses⟩
      exact ⟨clauses, idealClauses_of_clausesWith hclauses⟩
    · rintro ⟨clauses, hclauses⟩
      exact hwords clauses hclauses
        ((idealClauses_within hbounded hwf c hcovered hclauses).words hfits.count_lt)
  induction c with
  | alwaysTrue => exact hleaf _ rfl hcovered fun _ _ _ => ⟨_, rfl⟩
  | alwaysFalse => exact hleaf _ rfl hcovered fun _ _ _ => ⟨_, rfl⟩
  | relation kind first second location =>
      refine hleaf _ rfl hcovered fun clauses hclauses hwords => ⟨clauses, ?_⟩
      obtain ⟨route, hroute, rfl⟩ := idealClauses_relation_eq_ok.mp hclauses
      exact clausesWith_relation_eq_ok.mpr ⟨route, hroute, hwords, rfl⟩
  | function table left right result location =>
      refine hleaf _ rfl hcovered fun clauses hclauses hwords => ⟨clauses, ?_⟩
      obtain ⟨operands, hoperands, rfl⟩ := idealClauses_function_eq_ok.mp hclauses
      exact clausesWith_function_eq_ok.mpr ⟨operands, hoperands, hwords, rfl⟩
  | preference subject goal q weight location =>
      exact hleaf _ rfl hcovered fun clauses hclauses _ => by cases hclauses
  | existential potential present absent location ihpresent ihabsent =>
      obtain ⟨hpotential, hpresent, habsent⟩ := hcovered.of_existential
      have hwithin := hfits.presence_isWithin hpotential
      have hpresence : Within numbering.count [[numbering.presence potential]] := by
        simpa [Within] using hwithin
      have habsence : Within numbering.count [[-numbering.presence potential]] := by
        simpa [Within] using hwithin
      have hps := clausesOfAll_isOk_iff_hasRoom hfits hwf habsence hpresent
        fun part hpart => ihpresent part hpart (hpresent part hpart)
      have has := clausesOfAll_isOk_iff_hasRoom hfits hwf hpresence habsent
        fun part hpart => ihabsent part hpart (habsent part hpart)
      have hvisit : (Visit.potential potential).succeeds registry = true := rfl
      rw [hasRoom_existential_iff, visits, List.forall_mem_cons, List.forall_mem_append,
        and_iff_right hvisit, and_and_and_comm, ← hps, ← has]
      simp only [clausesWith_existential_eq_ok, and_iff_right (hfits.presence?_eq hpotential)]
      constructor
      · rintro ⟨_, ps, as, hps, has, -⟩
        exact ⟨⟨ps, hps⟩, as, has⟩
      · rintro ⟨⟨ps, hps⟩, as, has⟩
        exact ⟨_, ps, as, hps, has, rfl⟩
  | implication assumptions conclusion location ihassumptions ihconclusion =>
      obtain ⟨hassumptions, hconclusion⟩ := hcovered.of_implication
      have hall := clausesOfAll_isOk_iff_hasRoom hfits hwf
        (List.forall_mem_singleton.mpr (by simp) : Within numbering.count [[]]) hassumptions
          fun part hpart => ihassumptions part hpart (hassumptions part hpart)
      have hone := ihconclusion hconclusion
      rw [hasRoom_implication_iff, visits, List.forall_mem_append]
      constructor
      · rintro ⟨_, h⟩
        obtain ⟨as, cs, has, hcs, -, hroom, -⟩ := clausesWith_implication_eq_ok.mp h
        obtain ⟨hvisits, hparts⟩ := hall.mp ⟨as, has⟩
        obtain ⟨hvisits', hroom'⟩ := hone.mp ⟨cs, hcs⟩
        rw [idealClausesOfAll_of_clausesOfAll has, idealClauses_of_clausesWith hcs]
        exact ⟨⟨hvisits, hvisits'⟩, hroom, hparts, hroom'⟩
      · rintro ⟨⟨hvisits, hvisits'⟩, hroom, hparts, hroom'⟩
        obtain ⟨as, has⟩ := hall.mpr ⟨hvisits, hparts⟩
        obtain ⟨cs, hcs⟩ := hone.mpr ⟨hvisits', hroom'⟩
        have hideal := idealClausesOfAll_of_clausesOfAll has
        rw [hideal, idealClauses_of_clausesWith hcs] at hroom
        have hwithin := idealClausesOfAll_within (fun part hpart _ =>
          idealClauses_within hbounded hwf part (hassumptions part hpart)) hideal
        exact ⟨_, clausesWith_implication_eq_ok.mpr ⟨as, cs, has, hcs,
          Clause.all_isNegatable_of_within hfits.count_lt hwithin, hroom, rfl⟩⟩

end Room

end Constraint

end Qualify
