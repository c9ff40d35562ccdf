import Qualify.Proofs.Clause.Meaning
import Qualify.Proofs.Constraint.Sameness

-- The encodings of constraints that are the same.
namespace Qualify

-- What of a visit matters to the numbers of the potential slots.
def Visit.effect (registry : Registry) (visit : Visit) : Bool × Option SlotId :=
  (visit.succeeds registry, visit.potential?)

namespace Constraint

section Visits

variable {registry : Registry}

theorem map_effect_visitsOfAll_congr {parts others : List Constraint}
    (h : List.Forall₂ (fun c d : Constraint =>
      c.visits.map (Visit.effect registry) = d.visits.map (Visit.effect registry)) parts others) :
    (visitsOfAll parts).map (Visit.effect registry) =
      (visitsOfAll others).map (Visit.effect registry) := by
  induction h with
  | nil => rfl
  | cons hfirst _ ih => rw [visitsOfAll, visitsOfAll, List.map_append, List.map_append, hfirst, ih]

-- What a visit does to the numbering does not depend on locations or on the order of a symmetric
-- pair, so the walk over the two constraints is the same.
theorem map_effect_visits_of_same {c d : Constraint} (h : c.same d = true) :
    c.visits.map (Visit.effect registry) = d.visits.map (Visit.effect registry) := by
  have hpart : ∀ c d : Constraint, c.isEncodable registry = d.isEncodable registry →
      [Visit.part c].map (Visit.effect registry) = [Visit.part d].map (Visit.effect registry) := by
    intro c d hencodable
    simp only [List.map_cons, Visit.effect, Visit.succeeds, hencodable, Visit.potential?]
  refine same_induction (motive := fun c d =>
    c.visits.map (Visit.effect registry) = d.visits.map (Visit.effect registry))
    rfl rfl ?_ ?_ ?_ ?_ ?_ ?_ h
  · intro kind first second location location'
    exact hpart _ _ (Except.isOk_congr (fun _ h => ⟨_, Registry.relationRoute_congr h⟩)
      fun _ h => ⟨_, Registry.relationRoute_congr h⟩)
  · intro kind first second location location' _
    exact hpart _ _ (Except.isOk_congr (fun _ h => ⟨_, Registry.relationRoute_swap h⟩)
      fun _ h => ⟨_, Registry.relationRoute_swap h⟩)
  · intro table left right result location location'
    exact hpart _ _ (Except.isOk_congr (fun _ h => ⟨_, Registry.functionRoute_congr h⟩)
      fun _ h => ⟨_, Registry.functionRoute_congr h⟩)
  · exact fun _ _ _ _ _ _ _ _ => rfl
  · intro potential present present' absent absent' location location' hpresent habsent
    simp only [visits, List.map_cons, List.map_append, map_effect_visitsOfAll_congr hpresent,
      map_effect_visitsOfAll_congr habsent]
  · intro assumptions assumptions' conclusion conclusion' location location' hassumptions
      hconclusion
    simp only [visits, List.map_append, map_effect_visitsOfAll_congr hassumptions, hconclusion]

theorem usedPotentials_of_same {c d : Constraint} (h : c.same d = true) :
    c.usedPotentials registry = d.usedPotentials registry := by
  have heffect : ∀ c : Constraint, c.usedPotentials registry =
      ((c.visits.map (Visit.effect registry)).takeWhile (·.1)).filterMap (·.2) := by
    intro c
    rw [List.takeWhile_map, List.filterMap_map]
    rfl
  rw [heffect, heffect, map_effect_visits_of_same h]

end Visits

end Constraint

def Recurs (clauses others : List Clause) : Prop :=
  ∀ clause ∈ clauses, ∃ other ∈ others, ∀ l, l ∈ clause ↔ l ∈ other

-- Clauses that hold together, and are refuted together as well. A number that is its own negation
-- keeps the one from following from the other.
structure Alike (valuation : Valuation) (clauses others : List Clause) : Prop where
  satisfies_iff : Satisfies valuation clauses ↔ Satisfies valuation others
  refuted_iff : Refuted valuation clauses ↔ Refuted valuation others

section Alike

variable {valuation : Valuation} {clauses others clauses' others' : List Clause}

theorem Recurs.satisfies (h : Recurs clauses others) (hsat : Satisfies valuation others) :
    Satisfies valuation clauses := by
  intro clause hclause
  obtain ⟨other, hother, hsame⟩ := h clause hclause
  obtain ⟨l, hl, hholds⟩ := (Clause.holds_iff valuation other).mp (hsat other hother)
  exact (Clause.holds_iff valuation clause).mpr ⟨l, (hsame l).mpr hl, hholds⟩

theorem Recurs.refuted (h : Recurs clauses others) (hrefuted : Refuted valuation clauses) :
    Refuted valuation others := by
  obtain ⟨clause, hclause, hall⟩ := hrefuted
  obtain ⟨other, hother, hsame⟩ := h clause hclause
  exact ⟨other, hother, fun l hl => hall l ((hsame l).mpr hl)⟩

theorem Recurs.words (h : Recurs clauses others) (hwords : Words others) : Words clauses := by
  intro clause hclause l hl
  obtain ⟨other, hother, hsame⟩ := h clause hclause
  exact hwords other hother l ((hsame l).mp hl)

theorem Recurs.alike (h : Recurs clauses others) (h' : Recurs others clauses) :
    Alike valuation clauses others :=
  ⟨⟨h'.satisfies, h.satisfies⟩, ⟨h.refuted, h'.refuted⟩⟩

theorem Alike.refl (valuation : Valuation) (clauses : List Clause) :
    Alike valuation clauses clauses :=
  ⟨Iff.rfl, Iff.rfl⟩

theorem Alike.append (h : Alike valuation clauses others) (h' : Alike valuation clauses' others') :
    Alike valuation (clauses ++ clauses') (others ++ others') where
  satisfies_iff := by simp [h.satisfies_iff, h'.satisfies_iff]
  refuted_iff := by simp [h.refuted_iff, h'.refuted_iff]

theorem Alike.map_append_singleton (h : Alike valuation clauses others) (l : Literal) :
    Alike valuation (clauses.map (· ++ [l])) (others.map (· ++ [l])) where
  satisfies_iff := by simp [satisfies_map_append_singleton, h.satisfies_iff]
  refuted_iff := by simp [refuted_map_append_singleton, h.refuted_iff]

theorem Alike.implying (h : Alike valuation clauses others)
    (h' : Alike valuation clauses' others') :
    Alike valuation (Clause.implying clauses clauses') (Clause.implying others others') where
  satisfies_iff := by simp [satisfies_implying_iff, h.refuted_iff, h'.satisfies_iff]
  refuted_iff := by simp [refuted_implying_iff, h.satisfies_iff, h'.refuted_iff]

end Alike

namespace Numbering

variable {numbering : Numbering} {lattice : Lattice}

-- Swapping the slots transposes the table of pairs: each clause comes back, perhaps elsewhere in
-- the list and with its two literals exchanged.
theorem variableVariableClauses_recurs {kind : Relation} (hsymmetric : kind.isSymmetric = true)
    (first second : SlotId) :
    Recurs (numbering.variableVariableClauses lattice kind first second)
      (numbering.variableVariableClauses lattice kind second first) := by
  intro clause hclause
  cases kind with
  | comparable =>
      obtain ⟨p, hp, hclause⟩ := List.mem_flatMap.mp hclause
      obtain ⟨q, hq, rfl⟩ := List.mem_map.mp hclause
      obtain ⟨hq, hincomparable⟩ := List.mem_filter.mp hq
      have hcomm : lattice.isComparable p q = lattice.isComparable q p := Bool.or_comm _ _
      have hp' : p ∈ lattice.qualifiers.filter fun r => !lattice.isComparable q r :=
        List.mem_filter.mpr ⟨hp, hcomm ▸ hincomparable⟩
      exact ⟨_, List.mem_flatMap.mpr ⟨q, hq, List.mem_map_of_mem hp'⟩, by simp [or_comm]⟩
  | equality =>
      obtain ⟨q, hq, hclause⟩ := List.mem_flatMap.mp hclause
      refine ⟨clause, List.mem_flatMap.mpr ⟨q, hq, ?_⟩, fun _ => Iff.rfl⟩
      simpa [or_comm] using hclause
  | inequality =>
      obtain ⟨q, hq, rfl⟩ := List.mem_map.mp hclause
      exact ⟨_, List.mem_map_of_mem hq, by simp [or_comm]⟩
  | subtype => cases hsymmetric

theorem relationClauses_swap_alike {kind : Relation} (hsymmetric : kind.isSymmetric = true)
    (valuation : Valuation) (route : RelationRoute) :
    Alike valuation (numbering.relationClauses lattice kind route)
      (numbering.relationClauses lattice kind route.swap) := by
  have hconstant := @variableConstantClauses_of_isSymmetric numbering lattice kind hsymmetric
  cases route with
  | constantVariable q id =>
      simp only [RelationRoute.swap, relationClauses, hconstant, Alike.refl]
  | variableConstant id q =>
      simp only [RelationRoute.swap, relationClauses, hconstant, Alike.refl]
  | variableVariable first second =>
      exact (variableVariableClauses_recurs hsymmetric first second).alike
        (variableVariableClauses_recurs hsymmetric second first)

end Numbering

namespace Constraint

section Clauses

variable {registry : Registry} {numbering : Numbering} {valuation : Valuation}

theorem idealClausesOfAll_alike {parts others : List Constraint}
    (h : List.Forall₂ (fun c d : Constraint => ∀ cs ds, idealClauses registry numbering c = .ok cs →
      idealClauses registry numbering d = .ok ds → Alike valuation cs ds) parts others)
    {cs ds : List Clause} (hcs : idealClausesOfAll registry numbering parts = .ok cs)
    (hds : idealClausesOfAll registry numbering others = .ok ds) : Alike valuation cs ds := by
  induction h generalizing cs ds with
  | nil =>
      cases hcs
      cases hds
      exact Alike.refl valuation []
  | cons hfirst _ ih =>
      obtain ⟨cs, cs', hc, hcs', rfl⟩ := idealClausesOfAll_cons_eq_ok.mp hcs
      obtain ⟨ds, ds', hd, hds', rfl⟩ := idealClausesOfAll_cons_eq_ok.mp hds
      exact (hfirst cs ds hc hd).append (ih hcs' hds')

-- The goals stand in the order of the constructors, a symmetric relation coming twice: once as it
-- is and once turned round.
theorem idealClauses_alike {c d : Constraint} (h : c.same d = true) {cs ds : List Clause}
    (hc : idealClauses registry numbering c = .ok cs)
    (hd : idealClauses registry numbering d = .ok ds) : Alike valuation cs ds := by
  refine same_induction (motive := fun c d => ∀ cs ds, idealClauses registry numbering c = .ok cs →
    idealClauses registry numbering d = .ok ds → Alike valuation cs ds)
    ?_ ?_ ?_ ?_ ?_ ?_ ?_ ?_ h cs ds hc hd
  · intro cs ds hc hd
    cases hc
    cases hd
    exact Alike.refl valuation []
  · intro cs ds hc hd
    cases hc
    cases hd
    exact Alike.refl valuation [[]]
  · intro kind first second location location' cs ds hc hd
    obtain ⟨route, hroute, rfl⟩ := idealClauses_relation_eq_ok.mp hc
    obtain ⟨route', hroute', rfl⟩ := idealClauses_relation_eq_ok.mp hd
    cases (Registry.relationRoute_congr hroute).symm.trans hroute'
    exact Alike.refl valuation _
  · intro kind first second location location' hsymmetric cs ds hc hd
    obtain ⟨route, hroute, rfl⟩ := idealClauses_relation_eq_ok.mp hc
    obtain ⟨route', hroute', rfl⟩ := idealClauses_relation_eq_ok.mp hd
    cases (Registry.relationRoute_swap hroute).symm.trans hroute'
    exact Numbering.relationClauses_swap_alike hsymmetric valuation route
  · intro table left right result location location' cs ds hc hd
    obtain ⟨operands, hoperands, rfl⟩ := idealClauses_function_eq_ok.mp hc
    obtain ⟨operands', hoperands', rfl⟩ := idealClauses_function_eq_ok.mp hd
    cases (Registry.functionRoute_congr hoperands).symm.trans hoperands'
    exact Alike.refl valuation _
  · intro subject goal q q' weight weight' location location' cs ds hc
    cases hc
  · intro potential present present' absent absent' location location' hpresent habsent cs ds hc hd
    obtain ⟨ps, as, hps, has, rfl⟩ := idealClauses_existential_eq_ok.mp hc
    obtain ⟨ps', as', hps', has', rfl⟩ := idealClauses_existential_eq_ok.mp hd
    exact ((idealClausesOfAll_alike hpresent hps hps').map_append_singleton _).append
      ((idealClausesOfAll_alike habsent has has').map_append_singleton _)
  · intro assumptions assumptions' conclusion conclusion' location location' hassumptions
      hconclusion cs ds hc hd
    obtain ⟨as, cs, has, hcs, rfl⟩ := idealClauses_implication_eq_ok.mp hc
    obtain ⟨as', cs', has', hcs', rfl⟩ := idealClauses_implication_eq_ok.mp hd
    exact (idealClausesOfAll_alike hassumptions has has').implying (hconclusion cs cs' hcs hcs')

end Clauses

end Constraint

end Qualify
