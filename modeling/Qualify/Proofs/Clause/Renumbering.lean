import Qualify.Proofs.Clause.Meaning

namespace Qualify

namespace Numbering

variable {numbering other : Numbering}

-- Only the number of qualifiers matters for the literals of slots.
theorem literal_congr (h : numbering.size = other.size) : numbering.literal = other.literal := by
  funext id q
  rw [literal, literal, h]

theorem relationClauses_congr (h : numbering.size = other.size) (lattice : Lattice)
    (kind : Relation) (route : RelationRoute) :
    numbering.relationClauses lattice kind route = other.relationClauses lattice kind route := by
  have hliteral := literal_congr h
  cases route <;> cases kind <;>
    simp only [relationClauses, constantVariableClauses, variableConstantClauses,
      variableVariableClauses, forbid, forbidPairs, hliteral]

theorem functionClauses_congr (h : numbering.size = other.size) (lattice : Lattice)
    (table : TableFunction) (result : SlotId) (operands : Operand × Operand) :
    numbering.functionClauses lattice table result operands =
      other.functionClauses lattice table result operands := by
  have hliteral := literal_congr h
  rcases operands with ⟨left | left, right | right⟩ <;> simp only [functionClauses, hliteral]

theorem presence?_useAll {potentials : List SlotId} {p : SlotId} (hp : p ∈ numbering.potentials) :
    (numbering.useAll potentials).presence? p = numbering.presence? p := by
  have hindex := (prefix_useAll numbering potentials).idxOf_eq_of_mem hp
  rw [presence?, presence, useAll_matrix, ← hindex, presence?, presence]

def transfer (numbering other : Numbering) (valuation : Valuation) : Valuation := fun number =>
  if number ≤ numbering.matrix then valuation number
  else (numbering.potentials[number - numbering.matrix - 1]?).any fun p =>
    Literal.holds valuation (other.presence p)

theorem transfer_of_le {valuation : Valuation} {number : Nat} (h : number ≤ numbering.matrix) :
    numbering.transfer other valuation number = valuation number :=
  if_pos h

theorem Fits.holds_transfer {registry : Registry} (hfits : numbering.Fits registry)
    (valuation : Valuation) {p : SlotId} (hp : p ∈ numbering.potentials) :
    Literal.holds (numbering.transfer other valuation) (numbering.presence p) =
      Literal.holds valuation (other.presence p) := by
  have hbehind : ¬numbering.matrix + numbering.potentials.idxOf p + 1 ≤ numbering.matrix := by omega
  have hposition : numbering.matrix + numbering.potentials.idxOf p + 1 - numbering.matrix - 1 =
      numbering.potentials.idxOf p := by omega
  rw [hfits.presence_eq hp, Literal.holds_natCast _ (by omega), transfer, if_neg hbehind, hposition,
    List.getElem?_idxOf hp, Option.any_some]

end Numbering

namespace Constraint

variable {registry : Registry} {numbering other : Numbering}

theorem clausesOfAll_congr {parts : List Constraint}
    (h : ∀ part ∈ parts,
      clausesWith registry numbering part = clausesWith registry other part) (ending : Clause) :
    clausesOfAll registry numbering ending parts = clausesOfAll registry other ending parts := by
  induction parts with
  | nil => rfl
  | cons c rest ih =>
      obtain ⟨hc, hrest⟩ := List.forall_mem_cons.mp h
      rw [clausesOfAll, clausesOfAll, hc, ih hrest]

-- Two numberings that agree on the potential slots of a constraint give it the same clauses.
theorem clausesWith_congr (hsize : numbering.size = other.size) (c : Constraint)
    (h : ∀ p, Visit.potential p ∈ c.visits → numbering.presence? p = other.presence? p) :
    clausesWith registry numbering c = clausesWith registry other c := by
  have hparts : ∀ parts : List Constraint,
      (∀ p, Visit.potential p ∈ visitsOfAll parts → numbering.presence? p = other.presence? p) →
      ∀ part ∈ parts, ∀ p, Visit.potential p ∈ part.visits →
        numbering.presence? p = other.presence? p := by
    intro parts hall part hpart p hp
    apply hall p
    rw [visitsOfAll_eq]
    exact List.mem_flatMap.mpr ⟨part, hpart, hp⟩
  induction c with
  | alwaysTrue => rfl
  | alwaysFalse => rfl
  | relation kind first second location =>
      simp only [clausesWith, Numbering.relationClauses_congr hsize]
  | function table left right result location =>
      simp only [clausesWith, Numbering.functionClauses_congr hsize]
  | preference subject goal q weight location => rfl
  | existential potential present absent location ihpresent ihabsent =>
      rw [visits] at h
      have hpresent := clausesOfAll_congr fun part hpart => ihpresent part hpart
        (hparts present (fun p hp => h p (List.mem_cons_of_mem _ (List.mem_append_left _ hp)))
          part hpart)
      have habsent := clausesOfAll_congr fun part hpart => ihabsent part hpart
        (hparts absent (fun p hp => h p (List.mem_cons_of_mem _ (List.mem_append_right _ hp)))
          part hpart)
      simp only [clausesWith, hpresent, habsent, h potential List.mem_cons_self]
  | implication assumptions conclusion location ihassumptions ihconclusion =>
      rw [visits] at h
      have hassumptions := clausesOfAll_congr fun part hpart => ihassumptions part hpart
        (hparts assumptions (fun p hp => h p (List.mem_append_left _ hp)) part hpart)
      rw [clausesWith, clausesWith, hassumptions,
        ihconclusion fun p hp => h p (List.mem_append_right _ hp)]

theorem clausesWith_useAll (potentials : List SlotId) {c : Constraint}
    (hcovered : Covered numbering c) :
    clausesWith registry (numbering.useAll potentials) c = clausesWith registry numbering c :=
  clausesWith_congr (Numbering.useAll_size numbering potentials) c
    fun p hp => Numbering.presence?_useAll (hcovered p hp)

end Constraint

-- Two numberings with values for each. The values agree on the literals of slots, which are among
-- the first `count`, and on the presence of the potential slots that both numberings have.
structure Numbering.Agree (registry : Registry) (count : Nat) (numbering other : Numbering)
    (valuation valuation' : Valuation) : Prop where
  size_eq : numbering.size = other.size
  row : ∀ id ∈ registry.variableSlots, numbering.RowWithin registry.lattice count id
  bounded : ∃ bound, numbering.Bounded registry bound
  bounded' : ∃ bound, other.Bounded registry bound
  same : ∀ n ≤ count, valuation n = valuation' n
  presence_holds : ∀ p ∈ numbering.potentials, p ∈ other.potentials →
    Literal.holds valuation (numbering.presence p) = Literal.holds valuation' (other.presence p)

theorem Numbering.agree_transfer {registry : Registry} (hwf : registry.WellFormed)
    {numbering other : Numbering} (hfits : numbering.Fits registry) (hother : other.Fits registry)
    (valuation : Valuation) :
    Agree registry other.matrix numbering other (numbering.transfer other valuation) valuation where
  size_eq := hfits.size_eq.trans hother.size_eq.symm
  row id hid q hq := by
    rw [hfits.literal_eq (hwf.index_lt hid) hq, hother.matrix_eq]
    exact Literal.isWithin_natCast (Nat.succ_pos _) (row_le (hwf.index_lt hid) hq)
  bounded := ⟨_, hfits.bounded hwf⟩
  bounded' := ⟨_, hother.bounded hwf⟩
  same n hn := by
    apply transfer_of_le
    rw [hfits.matrix_eq, ← hother.matrix_eq]
    exact hn
  presence_holds p hp _ := hfits.holds_transfer valuation hp

namespace Constraint

variable {registry : Registry} {numbering other : Numbering} {valuation valuation' : Valuation}

theorem satisfies_idealClausesOfAll_congr {parts : List Constraint} {all all' : List Clause}
    (hparts : ∀ part ∈ parts, ∀ clauses clauses',
      idealClauses registry numbering part = .ok clauses →
      idealClauses registry other part = .ok clauses' →
      (Satisfies valuation clauses ↔ Satisfies valuation' clauses'))
    (h : idealClausesOfAll registry numbering parts = .ok all)
    (h' : idealClausesOfAll registry other parts = .ok all') :
    Satisfies valuation all ↔ Satisfies valuation' all' := by
  rw [satisfies_idealClausesOfAll_iff h, satisfies_idealClausesOfAll_iff h']
  refine forall₂_congr fun part hpart => ?_
  obtain ⟨clauses, hclauses⟩ := idealClausesOfAll_isOk_iff.mp ⟨all, h⟩ part hpart
  obtain ⟨clauses', hclauses'⟩ := idealClausesOfAll_isOk_iff.mp ⟨all', h'⟩ part hpart
  simp only [hclauses, hclauses', Except.ok.injEq, forall_eq']
  exact hparts part hpart clauses clauses' hclauses hclauses'

-- Clauses say the same in either numbering, also to values that give a slot no qualifier or many.
theorem satisfies_idealClauses_of_agree {count : Nat}
    (h : Numbering.Agree registry count numbering other valuation valuation')
    (hwf : registry.WellFormed) (c : Constraint) (hcovered : Covered numbering c)
    (hcovered' : Covered other c) {clauses clauses' : List Clause}
    (hclauses : idealClauses registry numbering c = .ok clauses)
    (hclauses' : idealClauses registry other c = .ok clauses') :
    Satisfies valuation clauses ↔ Satisfies valuation' clauses' := by
  obtain ⟨bound, hbounded⟩ := h.bounded
  obtain ⟨bound', hbounded'⟩ := h.bounded'
  have hrows : ({ numbering with potentials := [] } : Numbering).Bounded registry count :=
    ⟨h.row, by simp⟩
  induction c generalizing clauses clauses' with
  | alwaysTrue =>
      cases hclauses
      cases hclauses'
      exact iff_of_true (satisfies_nil _) (satisfies_nil _)
  | alwaysFalse =>
      cases hclauses
      cases hclauses'
      simp
  | relation kind first second location =>
      obtain ⟨route, hroute, rfl⟩ := idealClauses_relation_eq_ok.mp hclauses
      obtain ⟨route', hroute', rfl⟩ := idealClauses_relation_eq_ok.mp hclauses'
      cases hroute.symm.trans hroute'
      rw [← Numbering.relationClauses_congr h.size_eq]
      exact (Numbering.relationClauses_within hrows hwf hroute).satisfies_congr h.same
  | function table left right result location =>
      obtain ⟨operands, hoperands, rfl⟩ := idealClauses_function_eq_ok.mp hclauses
      obtain ⟨operands', hoperands', rfl⟩ := idealClauses_function_eq_ok.mp hclauses'
      cases hoperands.symm.trans hoperands'
      rw [← Numbering.functionClauses_congr h.size_eq]
      exact (Numbering.functionClauses_route_within hrows hwf hoperands).satisfies_congr h.same
  | preference subject goal q weight location => cases hclauses
  | existential potential present absent location ihpresent ihabsent =>
      obtain ⟨ps, as, hps, has, rfl⟩ := idealClauses_existential_eq_ok.mp hclauses
      obtain ⟨ps', as', hps', has', rfl⟩ := idealClauses_existential_eq_ok.mp hclauses'
      obtain ⟨hpotential, hpresent, habsent⟩ := hcovered.of_existential
      obtain ⟨hpotential', hpresent', habsent'⟩ := hcovered'.of_existential
      have hps := satisfies_idealClausesOfAll_congr (fun part hpart _ _ =>
        ihpresent part hpart (hpresent part hpart) (hpresent' part hpart)) hps hps'
      have has := satisfies_idealClausesOfAll_congr (fun part hpart _ _ =>
        ihabsent part hpart (habsent part hpart) (habsent' part hpart)) has has'
      have hzero := Literal.ne_zero_of_isWithin (hbounded.presence potential hpotential)
      have hzero' := Literal.ne_zero_of_isWithin (hbounded'.presence potential hpotential')
      rw [satisfies_append, satisfies_append, satisfies_map_append_singleton,
        satisfies_map_append_singleton, satisfies_map_append_singleton,
        satisfies_map_append_singleton, hps, has, Literal.holds_neg valuation hzero,
        Literal.holds_neg valuation' hzero', h.presence_holds potential hpotential hpotential']
  | implication assumptions conclusion location ihassumptions ihconclusion =>
      obtain ⟨as, cs, has, hcs, rfl⟩ := idealClauses_implication_eq_ok.mp hclauses
      obtain ⟨as', cs', has', hcs', rfl⟩ := idealClauses_implication_eq_ok.mp hclauses'
      obtain ⟨hassumptions, hconclusion⟩ := hcovered.of_implication
      obtain ⟨hassumptions', hconclusion'⟩ := hcovered'.of_implication
      have hzero := (idealClausesOfAll_within (fun part hpart _ =>
        idealClauses_within hbounded hwf part (hassumptions part hpart)) has).nonZero
      have hzero' := (idealClausesOfAll_within (fun part hpart _ =>
        idealClauses_within hbounded' hwf part (hassumptions' part hpart)) has').nonZero
      have has := satisfies_idealClausesOfAll_congr (fun part hpart _ _ =>
        ihassumptions part hpart (hassumptions part hpart) (hassumptions' part hpart)) has has'
      rw [satisfies_implying valuation as cs hzero, satisfies_implying valuation' as' cs' hzero',
        has]
      exact imp_congr_right fun _ => ihconclusion hconclusion hconclusion' hcs hcs'

end Constraint

end Qualify
