import Mathlib.Data.List.TakeWhile
import Qualify.Proofs.Clause.Ideal
import Qualify.Proofs.Clause.Leaves
import Qualify.Proofs.Constraint.Route

namespace Qualify

namespace Numbering

structure Bounded (numbering : Numbering) (registry : Registry) (count : Nat) : Prop where
  row : ∀ id ∈ registry.variableSlots, numbering.RowWithin registry.lattice count id
  presence : ∀ p ∈ numbering.potentials, Literal.isWithin count (numbering.presence p) = true

theorem Fits.bounded {numbering : Numbering} {registry : Registry}
    (hfits : numbering.Fits registry) (hwf : registry.WellFormed) :
    numbering.Bounded registry numbering.count where
  row _ hid _ hq := hfits.literal_isWithin (hwf.index_lt hid) hq
  presence _ hp := hfits.presence_isWithin hp

-- All literals of 32 bits are within this bound, except zero.
theorem Mirrors.bounded {numbering : Numbering} {registry : Registry}
    {interpretation : Interpretation} {valuation : Valuation}
    (h : numbering.Mirrors registry interpretation valuation) :
    numbering.Bounded registry 0x80000000 where
  row id hid q hq := Literal.isWithin_narrow (h.literal_ne_zero id hid q hq)
  presence p hp := Literal.isWithin_narrow (h.presence_ne_zero p hp)

theorem Reads.mirrors {numbering : Numbering} {registry : Registry}
    {interpretation : Interpretation} {valuation : Valuation}
    (h : numbering.Reads registry interpretation valuation) {count : Nat}
    (hbounded : numbering.Bounded registry count) :
    numbering.Mirrors registry interpretation valuation where
  toReads := h
  literal_ne_zero id hid q hq := Literal.ne_zero_of_isWithin (hbounded.row id hid q hq)
  presence_ne_zero p hp := Literal.ne_zero_of_isWithin (hbounded.presence p hp)

section Leaves

variable {numbering : Numbering} {registry : Registry} {interpretation : Interpretation}
  {valuation : Valuation} {count : Nat}

theorem Mirrors.takes (h : numbering.Mirrors registry interpretation valuation)
    (hrange : interpretation.InRange registry) {id : SlotId} (hid : id ∈ registry.variableSlots) :
    numbering.Takes registry.lattice valuation id (interpretation.choice id) where
  lt := hrange id hid
  ne_zero := h.literal_ne_zero id hid
  holds := h.literal_holds id hid

theorem Mirrors.operand_means (hmirrors : numbering.Mirrors registry interpretation valuation)
    (hwf : registry.WellFormed) (hrange : interpretation.InRange registry) {id : SlotId}
    {operand : Operand} (h : registry.operand id = .ok operand) :
    operand.Means numbering registry.lattice valuation (interpretation.value registry id) := by
  rcases hwf.operand_cases h with ⟨q, rfl, hq, hconstant⟩ | ⟨rfl, hid, hconstant⟩
  · exact ⟨by rw [Interpretation.value, hconstant, Option.getD_some], hq⟩
  · have htakes := hmirrors.takes hrange hid
    rwa [← Option.getD_none (a := interpretation.choice id), ← hconstant] at htakes

-- The route says which of the two sides are constants; each case is one of the leaf translations.
theorem Mirrors.satisfies_relationClauses
    (hmirrors : numbering.Mirrors registry interpretation valuation)
    (hwf : registry.WellFormed) (hrange : interpretation.InRange registry) {kind : Relation}
    {first second : SlotId} {location : Location} {route : RelationRoute}
    (h : registry.relationRoute kind first second location = .ok route) :
    Satisfies valuation (numbering.relationClauses registry.lattice kind route) ↔
      kind.holds registry.lattice (interpretation.value registry first)
        (interpretation.value registry second) = true := by
  obtain ⟨a, b, ha, hb, hroute⟩ := Registry.relationRoute_cases h
  have hfirst := hmirrors.operand_means hwf hrange ha
  have hsecond := hmirrors.operand_means hwf hrange hb
  rcases hroute with ⟨q, id, rfl, rfl, rfl⟩ | ⟨id, q, rfl, rfl, rfl⟩ | ⟨v, w, rfl, rfl, rfl⟩
  · rw [hfirst.1]
    exact satisfies_constantVariableClauses hfirst.2 hsecond kind
  · rw [hsecond.1]
    exact satisfies_variableConstantClauses hsecond.2 hfirst kind
  · exact satisfies_variableVariableClauses hfirst hsecond kind

theorem relationClauses_ofSlots (hwf : registry.WellFormed) {kind : Relation}
    {first second : SlotId} {location : Location} {route : RelationRoute}
    (h : registry.relationRoute kind first second location = .ok route) :
    numbering.OfSlots registry.lattice
      (fun id => id ∈ [first, second] ∧ id ∈ registry.variableSlots)
      (numbering.relationClauses registry.lattice kind route) := by
  obtain ⟨a, b, ha, hb, hroute⟩ := Registry.relationRoute_cases h
  rcases hroute with ⟨q, id, rfl, rfl, rfl⟩ | ⟨id, q, rfl, rfl, rfl⟩ | ⟨v, w, rfl, rfl, rfl⟩
  · obtain ⟨rfl, hid⟩ := hwf.slot_operand hb
    exact constantVariableClauses_ofSlots (hwf.constant_operand_lt ha) ⟨by simp, hid⟩ kind
  · obtain ⟨rfl, hid⟩ := hwf.slot_operand ha
    exact variableConstantClauses_ofSlots (hwf.constant_operand_lt hb) ⟨by simp, hid⟩ kind
  · obtain ⟨rfl, hv⟩ := hwf.slot_operand ha
    obtain ⟨rfl, hw⟩ := hwf.slot_operand hb
    exact variableVariableClauses_ofSlots ⟨by simp, hv⟩ ⟨by simp, hw⟩ kind

theorem relationClauses_within (hbounded : numbering.Bounded registry count)
    (hwf : registry.WellFormed) {kind : Relation} {first second : SlotId} {location : Location}
    {route : RelationRoute}
    (h : registry.relationRoute kind first second location = .ok route) :
    Within count (numbering.relationClauses registry.lattice kind route) :=
  (relationClauses_ofSlots hwf h).within fun id hid => hbounded.row id hid.2

theorem Mirrors.satisfies_functionClauses
    (hmirrors : numbering.Mirrors registry interpretation valuation)
    (hwf : registry.WellFormed) (hrange : interpretation.InRange registry)
    {table : TableFunction} {left right result : SlotId} {location : Location}
    {operands : Operand × Operand}
    (h : registry.functionRoute table left right result location = .ok operands) :
    Satisfies valuation (numbering.functionClauses registry.lattice table result operands) ↔
      (interpretation.value registry result ==
        table.apply registry.lattice (interpretation.value registry left)
          (interpretation.value registry right)) = true := by
  obtain ⟨id, hresult, hleft, hright⟩ := Registry.functionRoute_cases h
  have hmeans := hmirrors.operand_means hwf hrange hresult
  rcases hwf.operand_cases hresult with ⟨q, heq, -⟩ | ⟨heq, -⟩
  · cases heq
  · cases heq
    exact Numbering.satisfies_functionClauses hwf.closed table hmeans
      (hmirrors.operand_means hwf hrange hleft) (hmirrors.operand_means hwf hrange hright)

theorem functionClauses_route_ofSlots (hwf : registry.WellFormed) {table : TableFunction}
    {left right result : SlotId} {location : Location} {operands : Operand × Operand}
    (h : registry.functionRoute table left right result location = .ok operands) :
    numbering.OfSlots registry.lattice
      (fun id => id ∈ [left, right, result] ∧ id ∈ registry.variableSlots)
      (numbering.functionClauses registry.lattice table result operands) := by
  obtain ⟨id, hresult, hleft, hright⟩ := Registry.functionRoute_cases h
  obtain ⟨rfl, hid⟩ := hwf.slot_operand hresult
  refine functionClauses_ofSlots hwf.closed table ⟨by simp, hid⟩ ?_ ?_
  · intro v hv
    obtain ⟨rfl, hmem⟩ := hwf.slot_operand (hv ▸ hleft)
    exact ⟨by simp, hmem⟩
  · intro w hw
    obtain ⟨rfl, hmem⟩ := hwf.slot_operand (hw ▸ hright)
    exact ⟨by simp, hmem⟩

theorem functionClauses_route_within (hbounded : numbering.Bounded registry count)
    (hwf : registry.WellFormed) {table : TableFunction} {left right result : SlotId}
    {location : Location} {operands : Operand × Operand}
    (h : registry.functionRoute table left right result location = .ok operands) :
    Within count (numbering.functionClauses registry.lattice table result operands) :=
  (functionClauses_route_ofSlots hwf h).within fun id hid => hbounded.row id hid.2

end Leaves

end Numbering

namespace Constraint

section Tree

variable {registry : Registry} {numbering : Numbering}

theorem idealClauses_relation_eq_ok {kind : Relation} {first second : SlotId} {location : Location}
    {all : List Clause} :
    idealClauses registry numbering (relation kind first second location) = .ok all ↔
      ∃ route, registry.relationRoute kind first second location = .ok route ∧
        all = numbering.relationClauses registry.lattice kind route := by
  rw [idealClauses]
  exact Except.bind_return_eq_ok

theorem idealClauses_function_eq_ok {table : TableFunction} {left right result : SlotId}
    {location : Location} {all : List Clause} :
    idealClauses registry numbering (function table left right result location) = .ok all ↔
      ∃ operands, registry.functionRoute table left right result location = .ok operands ∧
        all = numbering.functionClauses registry.lattice table result operands := by
  rw [idealClauses]
  exact Except.bind_return_eq_ok

theorem idealClauses_existential_eq_ok {potential : SlotId} {present absent : List Constraint}
    {location : Location} {all : List Clause} :
    idealClauses registry numbering (existential potential present absent location) = .ok all ↔
      ∃ ps as, idealClausesOfAll registry numbering present = .ok ps ∧
        idealClausesOfAll registry numbering absent = .ok as ∧
        all = ps.map (· ++ [-numbering.presence potential]) ++
          as.map (· ++ [numbering.presence potential]) := by
  rw [idealClauses]
  exact Except.bind₂_return_eq_ok

theorem idealClauses_implication_eq_ok {assumptions : List Constraint} {conclusion : Constraint}
    {location : Location} {all : List Clause} :
    idealClauses registry numbering (implication assumptions conclusion location) = .ok all ↔
      ∃ as cs, idealClausesOfAll registry numbering assumptions = .ok as ∧
        idealClauses registry numbering conclusion = .ok cs ∧ all = Clause.implying as cs := by
  rw [idealClauses]
  exact Except.bind₂_return_eq_ok

theorem idealClausesOfAll_cons_eq_ok {c : Constraint} {rest : List Constraint} {all : List Clause} :
    idealClausesOfAll registry numbering (c :: rest) = .ok all ↔ ∃ clauses others,
      idealClauses registry numbering c = .ok clauses ∧
        idealClausesOfAll registry numbering rest = .ok others ∧ all = clauses ++ others := by
  rw [idealClausesOfAll]
  exact Except.bind₂_return_eq_ok

-- The clauses of some constraints are the clauses of each.
theorem mem_idealClausesOfAll {constraints : List Constraint} {all : List Clause}
    (h : idealClausesOfAll registry numbering constraints = .ok all) (clause : Clause) :
    clause ∈ all ↔ ∃ c ∈ constraints, ∃ clauses,
      idealClauses registry numbering c = .ok clauses ∧ clause ∈ clauses := by
  induction constraints generalizing all with
  | nil =>
      cases h
      simp
  | cons c rest ih =>
      obtain ⟨clauses, others, hclauses, hothers, rfl⟩ := idealClausesOfAll_cons_eq_ok.mp h
      have hfirst : (∃ same, idealClauses registry numbering c = .ok same ∧ clause ∈ same) ↔
          clause ∈ clauses := by
        simp [hclauses]
      rw [List.mem_append, ih hothers, ← hfirst]
      simp only [List.mem_cons, or_and_right, exists_or, exists_eq_left]

theorem idealClausesOfAll_isOk_iff {constraints : List Constraint} :
    (∃ all, idealClausesOfAll registry numbering constraints = .ok all) ↔
      ∀ c ∈ constraints, ∃ clauses, idealClauses registry numbering c = .ok clauses := by
  induction constraints with
  | nil => simp [idealClausesOfAll]
  | cons c rest ih =>
      rw [List.forall_mem_cons, ← ih]
      constructor
      · rintro ⟨all, h⟩
        obtain ⟨clauses, others, hclauses, hothers, -⟩ := idealClausesOfAll_cons_eq_ok.mp h
        exact ⟨⟨clauses, hclauses⟩, ⟨others, hothers⟩⟩
      · rintro ⟨⟨clauses, hclauses⟩, ⟨others, hothers⟩⟩
        exact ⟨_, idealClausesOfAll_cons_eq_ok.mpr ⟨clauses, others, hclauses, hothers, rfl⟩⟩

-- A constraint has clauses exactly when nothing on the way through it fails.
theorem idealClauses_isOk_iff (c : Constraint) :
    (∃ clauses, idealClauses registry numbering c = .ok clauses) ↔
      ∀ visit ∈ c.visits, visit.succeeds registry = true := by
  have hall : ∀ parts : List Constraint,
      (∀ part ∈ parts, (∃ clauses, idealClauses registry numbering part = .ok clauses) ↔
        ∀ visit ∈ part.visits, visit.succeeds registry = true) →
      ((∃ all, idealClausesOfAll registry numbering parts = .ok all) ↔
        ∀ visit ∈ visitsOfAll parts, visit.succeeds registry = true) := by
    intro parts ih
    rw [idealClausesOfAll_isOk_iff, visitsOfAll_eq, List.forall_mem_flatMap]
    exact forall₂_congr ih
  induction c with
  | alwaysTrue => simp [idealClauses, visits, Visit.succeeds, isEncodable]
  | alwaysFalse => simp [idealClauses, visits, Visit.succeeds, isEncodable]
  | relation kind first second location =>
      simp only [idealClauses_relation_eq_ok, visits, Visit.succeeds, isEncodable,
        List.forall_mem_singleton, Except.isOk_iff]
      constructor
      · rintro ⟨_, route, h, -⟩
        exact ⟨route, h⟩
      · rintro ⟨route, h⟩
        exact ⟨_, route, h, rfl⟩
  | function table left right result location =>
      simp only [idealClauses_function_eq_ok, visits, Visit.succeeds, isEncodable,
        List.forall_mem_singleton, Except.isOk_iff]
      constructor
      · rintro ⟨_, operands, h, -⟩
        exact ⟨operands, h⟩
      · rintro ⟨operands, h⟩
        exact ⟨_, operands, h, rfl⟩
  | preference subject goal q weight location =>
      simp [idealClauses, visits, Visit.succeeds, isEncodable]
  | existential potential present absent location ihpresent ihabsent =>
      simp only [idealClauses_existential_eq_ok]
      rw [visits, List.forall_mem_cons, List.forall_mem_append, ← hall present ihpresent,
        ← hall absent ihabsent]
      constructor
      · rintro ⟨_, ps, as, hps, has, -⟩
        exact ⟨rfl, ⟨ps, hps⟩, ⟨as, has⟩⟩
      · rintro ⟨-, ⟨ps, hps⟩, ⟨as, has⟩⟩
        exact ⟨_, ps, as, hps, has, rfl⟩
  | implication assumptions conclusion location ihassumptions ihconclusion =>
      simp only [idealClauses_implication_eq_ok]
      rw [visits, List.forall_mem_append, ← hall assumptions ihassumptions]
      refine Iff.trans ?_ (and_congr_right fun _ => ihconclusion)
      constructor
      · rintro ⟨_, as, cs, has, hcs, -⟩
        exact ⟨⟨as, has⟩, ⟨cs, hcs⟩⟩
      · rintro ⟨⟨as, has⟩, ⟨cs, hcs⟩⟩
        exact ⟨_, as, cs, has, hcs, rfl⟩

theorem idealClausesOfAll_within {count : Nat} {parts : List Constraint} {all : List Clause}
    (hparts : ∀ part ∈ parts, ∀ clauses, idealClauses registry numbering part = .ok clauses →
      Within count clauses)
    (h : idealClausesOfAll registry numbering parts = .ok all) : Within count all := by
  intro clause hclause
  obtain ⟨part, hpart, clauses, hclauses, hmem⟩ := (mem_idealClausesOfAll h clause).mp hclause
  exact hparts part hpart clauses hclauses clause hmem

theorem satisfies_idealClausesOfAll_iff {valuation : Valuation} {parts : List Constraint}
    {all : List Clause} (h : idealClausesOfAll registry numbering parts = .ok all) :
    Satisfies valuation all ↔ ∀ part ∈ parts, ∀ clauses,
      idealClauses registry numbering part = .ok clauses → Satisfies valuation clauses := by
  constructor
  · intro hsat part hpart clauses hclauses clause hclause
    exact hsat clause
      ((mem_idealClausesOfAll h clause).mpr ⟨part, hpart, clauses, hclauses, hclause⟩)
  · intro hall clause hclause
    obtain ⟨part, hpart, clauses, hclauses, hmem⟩ := (mem_idealClausesOfAll h clause).mp hclause
    exact hall part hpart clauses hclauses clause hmem

-- A conjunction of parts is satisfied part by part, and every part has its own clauses.
theorem satisfies_idealClausesOfAll {interpretation : Interpretation} {valuation : Valuation}
    {parts : List Constraint} {all : List Clause}
    (hparts : ∀ part ∈ parts, ∀ clauses, idealClauses registry numbering part = .ok clauses →
      (Satisfies valuation clauses ↔ interpretation.eval registry part = true))
    (h : idealClausesOfAll registry numbering parts = .ok all) :
    Satisfies valuation all ↔ interpretation.evalAll registry parts = true := by
  rw [Interpretation.evalAll_iff, satisfies_idealClausesOfAll_iff h]
  refine forall₂_congr fun part hpart => ?_
  obtain ⟨clauses, hclauses⟩ := idealClausesOfAll_isOk_iff.mp ⟨all, h⟩ part hpart
  rw [← hparts part hpart clauses hclauses]
  constructor
  · intro hall
    exact hall clauses hclauses
  · intro hsat others hothers
    cases hclauses.symm.trans hothers
    exact hsat

def Covered (numbering : Numbering) (c : Constraint) : Prop :=
  ∀ p, Visit.potential p ∈ c.visits → p ∈ numbering.potentials

theorem covered_of_visitsOfAll {parts : List Constraint}
    (h : ∀ p, Visit.potential p ∈ visitsOfAll parts → p ∈ numbering.potentials) :
    ∀ part ∈ parts, Covered numbering part := by
  intro part hpart p hp
  exact h p (visits_subset_visitsOfAll hpart hp)

theorem Covered.of_existential {potential : SlotId} {present absent : List Constraint}
    {location : Location}
    (h : Covered numbering (existential potential present absent location)) :
    potential ∈ numbering.potentials ∧ (∀ part ∈ present, Covered numbering part) ∧
      ∀ part ∈ absent, Covered numbering part := by
  rw [Covered, visits] at h
  refine ⟨h potential List.mem_cons_self, covered_of_visitsOfAll fun p hp => h p ?_,
    covered_of_visitsOfAll fun p hp => h p ?_⟩
  · exact List.mem_cons_of_mem _ (List.mem_append_left _ hp)
  · exact List.mem_cons_of_mem _ (List.mem_append_right _ hp)

theorem Covered.of_implication {assumptions : List Constraint} {conclusion : Constraint}
    {location : Location} (h : Covered numbering (implication assumptions conclusion location)) :
    (∀ part ∈ assumptions, Covered numbering part) ∧ Covered numbering conclusion := by
  rw [Covered, visits] at h
  exact ⟨covered_of_visitsOfAll fun p hp => h p (List.mem_append_left _ hp),
    fun p hp => h p (List.mem_append_right _ hp)⟩

-- What a literal in the clauses of a constraint can be about: a variable among its slots, or the
-- presence of a potential slot in it.
def LiteralOf (registry : Registry) (numbering : Numbering) (c : Constraint) (l : Literal) : Prop :=
  (∃ id, (id ∈ c.slots ∧ id ∈ registry.variableSlots) ∧ numbering.OfSlot registry.lattice id l) ∨
    ∃ p, Visit.potential p ∈ c.visits ∧ (l = numbering.presence p ∨ l = -numbering.presence p)

theorem LiteralOf.mono {c d : Constraint} {l : Literal} (h : LiteralOf registry numbering c l)
    (hslots : c.slots ⊆ d.slots) (hvisits : c.visits ⊆ d.visits) :
    LiteralOf registry numbering d l := by
  rcases h with ⟨id, ⟨hid, hvariable⟩, hl⟩ | ⟨p, hp, hl⟩
  · exact .inl ⟨id, ⟨hslots hid, hvariable⟩, hl⟩
  · exact .inr ⟨p, hvisits hp, hl⟩

theorem LiteralOf.neg {c : Constraint} {l : Literal} (h : LiteralOf registry numbering c (-l)) :
    LiteralOf registry numbering c l := by
  rcases h with ⟨id, hid, hl⟩ | ⟨p, hp, hl⟩
  · exact .inl ⟨id, hid, by simpa using hl.neg⟩
  · refine .inr ⟨p, hp, ?_⟩
    rcases hl with hl | hl
    · exact .inr (by rw [← hl, Int.neg_neg])
    · exact .inl (by rw [← Int.neg_neg l, hl, Int.neg_neg])

theorem LiteralOf.isWithin {count : Nat} {c : Constraint} {l : Literal}
    (h : LiteralOf registry numbering c l) (hbounded : numbering.Bounded registry count)
    (hcovered : Covered numbering c) : Literal.isWithin count l = true := by
  rcases h with ⟨id, ⟨-, hid⟩, hl⟩ | ⟨p, hp, hl⟩
  · exact hl.isWithin (hbounded.row id hid)
  · have hpresence := hbounded.presence p (hcovered p hp)
    rcases hl with hl | hl
    · rw [hl]
      exact hpresence
    · rw [hl, Literal.isWithin_neg]
      exact hpresence

theorem literalOf_of_idealClausesOfAll {parts : List Constraint} {c : Constraint}
    {all : List Clause}
    (hparts : ∀ part ∈ parts, ∀ clauses, idealClauses registry numbering part = .ok clauses →
      ∀ clause ∈ clauses, ∀ l ∈ clause, LiteralOf registry numbering part l)
    (hslots : slotsOfAll parts ⊆ c.slots) (hvisits : visitsOfAll parts ⊆ c.visits)
    (h : idealClausesOfAll registry numbering parts = .ok all) :
    ∀ clause ∈ all, ∀ l ∈ clause, LiteralOf registry numbering c l := by
  intro clause hclause l hl
  obtain ⟨part, hpart, clauses, hclauses, hmem⟩ := (mem_idealClausesOfAll h clause).mp hclause
  refine (hparts part hpart clauses hclauses clause hmem l hl).mono ?_ ?_
  · exact fun id hid => hslots (slots_subset_slotsOfAll hpart hid)
  · exact fun visit hvisit => hvisits (visits_subset_visitsOfAll hpart hvisit)

-- The clauses of a constraint have no literals but those of its slots.
theorem literalOf_of_idealClauses (hwf : registry.WellFormed) (c : Constraint)
    {clauses : List Clause} (h : idealClauses registry numbering c = .ok clauses) :
    ∀ clause ∈ clauses, ∀ l ∈ clause, LiteralOf registry numbering c l := by
  induction c generalizing clauses with
  | alwaysTrue =>
      cases h
      simp
  | alwaysFalse =>
      cases h
      simp
  | relation kind first second location =>
      obtain ⟨route, hroute, rfl⟩ := idealClauses_relation_eq_ok.mp h
      exact fun clause hclause l hl =>
        .inl (Numbering.relationClauses_ofSlots hwf hroute clause hclause l hl)
  | function table left right result location =>
      obtain ⟨operands, hoperands, rfl⟩ := idealClauses_function_eq_ok.mp h
      exact fun clause hclause l hl =>
        .inl (Numbering.functionClauses_route_ofSlots hwf hoperands clause hclause l hl)
  | preference subject goal q weight location => cases h
  | existential potential present absent location ihpresent ihabsent =>
      obtain ⟨ps, as, hps, has, rfl⟩ := idealClauses_existential_eq_ok.mp h
      have hps := literalOf_of_idealClausesOfAll
        (c := existential potential present absent location)
        (fun c hc _ => ihpresent c hc) (by simp [slots]) (by simp [visits]) hps
      have has := literalOf_of_idealClausesOfAll
        (c := existential potential present absent location)
        (fun c hc _ => ihabsent c hc) (by simp [slots]) (by simp [visits]) has
      have hguard : ∀ l, l = numbering.presence potential ∨ l = -numbering.presence potential →
          LiteralOf registry numbering (existential potential present absent location) l :=
        fun l hl => .inr ⟨potential, by simp [visits], hl⟩
      refine List.forall_mem_append.mpr ⟨List.forall_mem_map.mpr fun clause hclause => ?_,
        List.forall_mem_map.mpr fun clause hclause => ?_⟩
      · exact List.forall_mem_append.mpr ⟨hps clause hclause, by simpa using hguard _ (.inr rfl)⟩
      · exact List.forall_mem_append.mpr ⟨has clause hclause, by simpa using hguard _ (.inl rfl)⟩
  | implication assumptions conclusion location ihassumptions ihconclusion =>
      obtain ⟨as, cs, has, hcs, rfl⟩ := idealClauses_implication_eq_ok.mp h
      have has := literalOf_of_idealClausesOfAll (c := implication assumptions conclusion location)
        (fun c hc _ => ihassumptions c hc) (by simp [slots]) (by simp [visits]) has
      refine List.forall_mem_flatMap.mpr fun refutation hrefutation =>
        List.forall_mem_map.mpr fun clause hclause => List.forall_mem_append.mpr ⟨?_, ?_⟩
      -- A literal of an assumption stands in the refutations with the other sign.
      · intro l hl
        obtain ⟨assumption, hassumption, hmem⟩ := exists_of_mem_refutations hrefutation hl
        exact (has assumption hassumption _ hmem).neg
      · intro l hl
        exact (ihconclusion hcs clause hclause l hl).mono (by simp [slots]) (by simp [visits])

theorem idealClauses_within {count : Nat} (hbounded : numbering.Bounded registry count)
    (hwf : registry.WellFormed) (c : Constraint) (hcovered : Covered numbering c)
    {clauses : List Clause} (h : idealClauses registry numbering c = .ok clauses) :
    Within count clauses := by
  intro clause hclause l hl
  exact (literalOf_of_idealClauses hwf c h clause hclause l hl).isWithin hbounded hcovered

-- The clauses of a constraint hold in a valuation exactly when the constraint holds in the
-- interpretation that the valuation says the same as.
theorem satisfies_idealClauses_of_mirrors {interpretation : Interpretation} {valuation : Valuation}
    (hmirrors : numbering.Mirrors registry interpretation valuation) (hwf : registry.WellFormed)
    (hrange : interpretation.InRange registry) (c : Constraint) (hcovered : Covered numbering c)
    {clauses : List Clause} (h : idealClauses registry numbering c = .ok clauses) :
    Satisfies valuation clauses ↔ interpretation.eval registry c = true := by
  induction c generalizing clauses with
  | alwaysTrue =>
      cases h
      simp [Interpretation.eval]
  | alwaysFalse =>
      cases h
      simp [Interpretation.eval]
  | relation kind first second location =>
      obtain ⟨route, hroute, rfl⟩ := idealClauses_relation_eq_ok.mp h
      exact hmirrors.satisfies_relationClauses hwf hrange hroute
  | function table left right result location =>
      obtain ⟨operands, hoperands, rfl⟩ := idealClauses_function_eq_ok.mp h
      exact hmirrors.satisfies_functionClauses hwf hrange hoperands
  | preference subject goal q weight location => cases h
  | existential potential present absent location ihpresent ihabsent =>
      obtain ⟨ps, as, hps, has, rfl⟩ := idealClauses_existential_eq_ok.mp h
      obtain ⟨hpotential, hpresent, habsent⟩ := hcovered.of_existential
      have hps := satisfies_idealClausesOfAll (fun c hc _ => ihpresent c hc (hpresent c hc)) hps
      have has := satisfies_idealClausesOfAll (fun c hc _ => ihabsent c hc (habsent c hc)) has
      have hnonzero := hmirrors.presence_ne_zero potential hpotential
      -- The literal of the potential slot switches the clauses of the other branch off.
      rw [satisfies_append, satisfies_map_append_singleton, satisfies_map_append_singleton, hps,
        has, Literal.holds_neg valuation hnonzero, hmirrors.presence_holds potential hpotential,
        Interpretation.eval]
      cases interpretation.present potential <;> simp
  | implication assumptions conclusion location ihassumptions ihconclusion =>
      obtain ⟨as, cs, has, hcs, rfl⟩ := idealClauses_implication_eq_ok.mp h
      obtain ⟨hassumptions, hconclusion⟩ := hcovered.of_implication
      have hwithin := idealClausesOfAll_within
        (fun c hc _ => idealClauses_within hmirrors.bounded hwf c (hassumptions c hc)) has
      have has := satisfies_idealClausesOfAll
        (fun c hc _ => ihassumptions c hc (hassumptions c hc)) has
      have hcs := ihconclusion hconclusion hcs
      rw [satisfies_implying valuation as cs hwithin.nonZero, has, hcs, Interpretation.eval]
      cases interpretation.evalAll registry assumptions <;> simp

theorem satisfies_idealClauses {interpretation : Interpretation} {valuation : Valuation}
    (hfits : numbering.Fits registry) (hwf : registry.WellFormed)
    (hrange : interpretation.InRange registry)
    (hreads : numbering.Reads registry interpretation valuation) (c : Constraint)
    (hcovered : Covered numbering c) {clauses : List Clause}
    (h : idealClauses registry numbering c = .ok clauses) :
    Satisfies valuation clauses ↔ interpretation.eval registry c = true :=
  satisfies_idealClauses_of_mirrors (hreads.mirrors (hfits.bounded hwf)) hwf hrange c hcovered h

theorem covered_useAll (numbering : Numbering) {c : Constraint} {clauses : List Clause}
    {other : Numbering} (h : idealClauses registry other c = .ok clauses) :
    Covered (numbering.useAll (c.usedPotentials registry)) c := by
  have hsucceeds := (idealClauses_isOk_iff c).mp ⟨clauses, h⟩
  intro p hp
  refine Numbering.mem_useAll.mpr (.inr ?_)
  rw [usedPotentials, List.takeWhile_eq_self_iff.mpr hsucceeds]
  exact List.mem_filterMap.mpr ⟨.potential p, hp, rfl⟩

end Tree

-- Clauses say what their constraint means. `earlier` are the potential slots of the constraints
-- that were encoded before.
theorem satisfies_clauses_iff_eval {registry : Registry} (hreachable : registry.Reachable)
    (earlier : List SlotId) (c : Constraint) {clauses : List Clause} {after : Numbering}
    (hclauses : c.clauses registry ((Numbering.ofRegistry registry).useAll earlier) =
      (.ok clauses, after))
    (hcount : registry.slots.size * registry.lattice.size + after.potentials.length < 0x80000000)
    (interpretation : Interpretation) (hrange : interpretation.InRange registry) :
    after.Reads registry interpretation (after.assignment registry interpretation) ∧
      ∀ valuation, after.Reads registry interpretation valuation →
        (Satisfies valuation clauses ↔ interpretation.eval registry c = true) := by
  have hwf := hreachable.wellFormed
  obtain ⟨hok, rfl⟩ := Prod.mk.inj hclauses
  have hok := idealClauses_of_clausesWith hok
  have hcovered := covered_useAll ((Numbering.ofRegistry registry).useAll earlier) hok
  rw [← Numbering.useAll_append] at hok hcovered hcount ⊢
  have hfits := Numbering.fits_useAll_ofRegistry hcount
  exact ⟨Numbering.reads_assignment hfits hwf interpretation, fun valuation hreads =>
    satisfies_idealClauses hfits hwf hrange hreads c hcovered hok⟩

section Sample

open Registry

-- An existential constraint as the assumption of an implication, which holds when the potential
-- slot is absent.
def taintRule : Constraint :=
  .implication
    [.existential sourceSlot [.relation .equality sinkSlot taintedSlot .missing] [] .missing]
    (.relation .equality sinkSlot untaintedSlot .missing) .missing

def untainted : Interpretation where
  choice _ := 1
  present _ := false

theorem taintRule_satisfies_clauses_iff_eval :
    taintRule.clauses taint (Numbering.ofRegistry taint) =
        (.ok [[-7, 8], [9, 8]], ⟨2, 8, [sourceSlot]⟩) ∧
      untainted.eval taint taintRule = true ∧
      Satisfies (Numbering.assignment ⟨2, 8, [sourceSlot]⟩ taint untainted) [[-7, 8], [9, 8]] := by
  have hclauses : taintRule.clauses taint (Numbering.ofRegistry taint) =
      (.ok [[-7, 8], [9, 8]], ⟨2, 8, [sourceSlot]⟩) :=
    Prod.ext (Except.toOption_eq_some.mp (by decide)) rfl
  have heval : untainted.eval taint taintRule = true := by decide
  have hmeans := satisfies_clauses_iff_eval taint_reachable [] taintRule hclauses
    (by decide) untainted (by decide)
  exact ⟨hclauses, heval, (hmeans.2 _ hmeans.1).mpr heval⟩

end Sample

end Constraint

end Qualify
