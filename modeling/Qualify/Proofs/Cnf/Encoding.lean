import Mathlib.Tactic.Choose
import Qualify.Cnf.Basic
import Qualify.Proofs.Clause.Bounds
import Qualify.Proofs.Clause.Renumbering
import Qualify.Proofs.Constraint.Built

namespace Qualify

theorem Numbering.literal_useAll (numbering : Numbering) (potentials : List SlotId) (id : SlotId)
    (q : Qualifier) : (numbering.useAll potentials).literal id q = numbering.literal id q := by
  rw [Numbering.literal, Numbering.useAll_size, Numbering.literal]

namespace Constraint

theorem potentialsOfAll_cons (c : Constraint) (rest : List Constraint) :
    potentialsOfAll (c :: rest) = c.visits.filterMap Visit.potential? ++ potentialsOfAll rest := by
  rw [potentialsOfAll, visitsOfAll, List.filterMap_append]
  rfl

theorem mem_potentialsOfAll {constraints : List Constraint} {p : SlotId} :
    p ∈ potentialsOfAll constraints ↔ ∃ c ∈ constraints, Visit.potential p ∈ c.visits := by
  rw [potentialsOfAll, visitsOfAll_eq, List.mem_filterMap]
  constructor
  · rintro ⟨visit, hvisit, hp⟩
    obtain ⟨c, hc, hmem⟩ := List.mem_flatMap.mp hvisit
    cases visit with
    | potential id =>
        cases hp
        exact ⟨c, hc, hmem⟩
    | part _ => cases hp
  · rintro ⟨c, hc, hmem⟩
    exact ⟨.potential p, List.mem_flatMap.mpr ⟨c, hc, hmem⟩, rfl⟩

def Encodable (registry : Registry) (c : Constraint) : Prop :=
  c.isSoft = false → ∀ visit ∈ c.visits, visit.succeeds registry = true

instance (registry : Registry) (c : Constraint) : Decidable (c.Encodable registry) :=
  inferInstanceAs
    (Decidable (c.isSoft = false → ∀ visit ∈ c.visits, visit.succeeds registry = true))

theorem usedPotentials_eq {registry : Registry} {c : Constraint}
    (h : ∀ visit ∈ c.visits, visit.succeeds registry = true) :
    c.usedPotentials registry = c.visits.filterMap Visit.potential? := by
  rw [usedPotentials, List.takeWhile_eq_self_iff.mpr h]

-- Nothing is counted twice when all variables are known beforehand.
theorem clauses_eq_ok_iff {registry : Registry} {numbering : Numbering} {c : Constraint}
    {clauses : List Clause} (others : List SlotId) :
    (c.clauses registry numbering).1 = .ok clauses ↔ c.clausesWith registry
      ((numbering.useAll (c.visits.filterMap Visit.potential?)).useAll others) = .ok clauses := by
  have hsame : (∀ visit ∈ c.visits, visit.succeeds registry = true) →
      c.clausesWith registry ((numbering.useAll (c.visits.filterMap Visit.potential?)).useAll
        others) = (c.clauses registry numbering).1 := by
    intro hsucceeds
    obtain ⟨ideal, hideal⟩ := (@idealClauses_isOk_iff registry
      (numbering.useAll (c.usedPotentials registry)) c).mpr hsucceeds
    have hcovered := covered_useAll numbering hideal
    rw [Constraint.clauses, ← clausesWith_useAll others hcovered, usedPotentials_eq hsucceeds]
  constructor
  · intro h
    rw [hsame ((idealClauses_isOk_iff c).mp ⟨_, idealClauses_of_clausesWith h⟩)]
    exact h
  · intro h
    rw [← hsame ((idealClauses_isOk_iff c).mp ⟨_, idealClauses_of_clausesWith h⟩)]
    exact h

theorem clauses_snd_of_ok {registry : Registry} {numbering : Numbering} {c : Constraint}
    {clauses : List Clause} (h : (c.clauses registry numbering).1 = .ok clauses) :
    (c.clauses registry numbering).2 =
      numbering.useAll (c.visits.filterMap Visit.potential?) := by
  have hsucceeds := (idealClauses_isOk_iff c).mp ⟨_, idealClauses_of_clausesWith h⟩
  rw [Constraint.clauses, usedPotentials_eq hsucceeds]

def hardClauses (registry : Registry) (numbering : Numbering) (c : Constraint) : List Clause :=
  if c.isSoft then [] else (c.idealClauses registry numbering).toOption.getD []

-- The constraint requires nothing, or its clauses are made.
def Encoded (registry : Registry) (numbering : Numbering) (c : Constraint) : Prop :=
  c.isSoft = false → c.clausesWith registry numbering = .ok (c.hardClauses registry numbering)

def softClause? (numbering : Numbering) : Constraint → Option (Clause × Nat)
  | preference subject _ q weight _ => some ([numbering.literal subject q], weight)
  | _ => none

theorem eq_preference_of_isSoft {c : Constraint} (h : c.isSoft = true) :
    ∃ subject goal q weight location, c = preference subject goal q weight location := by
  cases c with
  | preference subject goal q weight location => exact ⟨_, _, _, _, _, rfl⟩
  | _ => cases h

theorem softClause?_eq_none {numbering : Numbering} {c : Constraint} (h : c.isSoft = false) :
    c.softClause? numbering = none := by
  cases c <;> first | rfl | cases h

section HardClauses

variable {registry : Registry} {numbering : Numbering} {c : Constraint}

theorem hardClauses_of_soft (h : c.isSoft = true) : c.hardClauses registry numbering = [] :=
  if_pos h

theorem hardClauses_of_ok (hsoft : c.isSoft = false) {clauses : List Clause}
    (h : c.clausesWith registry numbering = .ok clauses) :
    c.hardClauses registry numbering = clauses := by
  rw [hardClauses, hsoft, idealClauses_of_clausesWith h]
  rfl

theorem Encodable.idealClauses_eq (h : c.Encodable registry) (hsoft : c.isSoft = false)
    (numbering : Numbering) :
    c.idealClauses registry numbering = .ok (c.hardClauses registry numbering) := by
  obtain ⟨clauses, hclauses⟩ := (@idealClauses_isOk_iff registry numbering c).mpr (h hsoft)
  rw [hardClauses, hsoft, hclauses]
  rfl

theorem encoded_of_soft (h : c.isSoft = true) : c.Encoded registry numbering :=
  fun hhard => by cases h.symm.trans hhard

theorem encoded_of_ok {clauses : List Clause} (h : c.clausesWith registry numbering = .ok clauses) :
    c.Encoded registry numbering := by
  intro hsoft
  rw [hardClauses_of_ok hsoft h]
  exact h

theorem Encoded.encodable (h : c.Encoded registry numbering) : c.Encodable registry :=
  fun hsoft => (idealClauses_isOk_iff c).mp ⟨_, idealClauses_of_clausesWith (h hsoft)⟩

-- Where all numbers fit, there has to be room for the clauses of the implications.
theorem encoded_iff (hfits : numbering.Fits registry) (hwf : registry.WellFormed)
    (hcovered : c.Covered numbering) :
    c.Encoded registry numbering ↔ c.Encodable registry ∧ c.HasRoom registry numbering := by
  cases hsoft : c.isSoft with
  | true =>
      have hroom : c.HasRoom registry numbering := by
        obtain ⟨_, _, _, _, _, rfl⟩ := eq_preference_of_isSoft hsoft
        simp [HasRoom, implications]
      exact iff_of_true (encoded_of_soft hsoft)
        ⟨fun hhard => (by cases hsoft.symm.trans hhard), hroom⟩
  | false =>
      have hencodable : c.Encodable registry ↔
          ∀ visit ∈ c.visits, visit.succeeds registry = true := imp_iff_right hsoft
      rw [hencodable, ← clausesWith_isOk_iff_hasRoom hfits hwf c hcovered]
      constructor
      · exact fun h => ⟨_, h hsoft⟩
      · rintro ⟨_, h⟩
        exact encoded_of_ok h

theorem Encodable.hardClauses_within (h : c.Encodable registry) {count : Nat}
    (hbounded : numbering.Bounded registry count) (hwf : registry.WellFormed)
    (hcovered : c.Covered numbering) : Within count (c.hardClauses registry numbering) := by
  cases hsoft : c.isSoft with
  | true =>
      rw [hardClauses_of_soft hsoft]
      simp [Within]
  | false => exact idealClauses_within hbounded hwf c hcovered (h.idealClauses_eq hsoft numbering)

theorem Encodable.satisfies_hardClauses (h : c.Encodable registry) {interpretation : Interpretation}
    {valuation : Valuation} (hmirrors : numbering.Mirrors registry interpretation valuation)
    (hwf : registry.WellFormed) (hrange : interpretation.InRange registry)
    (hcovered : c.Covered numbering) :
    Satisfies valuation (c.hardClauses registry numbering) ↔
      interpretation.eval registry c = true := by
  cases hsoft : c.isSoft with
  | true =>
      rw [hardClauses_of_soft hsoft]
      obtain ⟨_, _, _, _, _, rfl⟩ := eq_preference_of_isSoft hsoft
      exact iff_of_true (satisfies_nil _) rfl
  | false =>
      exact satisfies_idealClauses_of_mirrors hmirrors hwf hrange c hcovered
        (h.idealClauses_eq hsoft numbering)

end HardClauses

end Constraint

namespace Cnf

def traced (registry : Registry) (numbering : Numbering) (position : Nat)
    (constraints : List Constraint) : List (Clause × Option Nat) :=
  (constraints.zipIdx position).flatMap fun (c, i) =>
    (c.hardClauses registry numbering).map (·, some i)

theorem mem_traced {registry : Registry} {numbering : Numbering} {constraints : List Constraint}
    {clause : Clause} {origin : Option Nat} :
    (clause, origin) ∈ traced registry numbering 0 constraints ↔
      ∃ i c, constraints[i]? = some c ∧ origin = some i ∧
        clause ∈ c.hardClauses registry numbering := by
  unfold traced
  rw [List.mem_flatMap]
  constructor
  · rintro ⟨⟨c, i⟩, hmem, hentry⟩
    obtain ⟨found, hclause, heq⟩ := List.mem_map.mp hentry
    cases heq
    exact ⟨i, c, List.mem_zipIdx_iff_getElem?.mp hmem, rfl, hclause⟩
  · rintro ⟨i, c, hget, rfl, hclause⟩
    exact ⟨(c, i), List.mem_zipIdx_iff_getElem?.mpr hget, List.mem_map.mpr ⟨clause, hclause, rfl⟩⟩

theorem mem_map_fst_traced {registry : Registry} {numbering : Numbering}
    {constraints : List Constraint} {clause : Clause} :
    clause ∈ (traced registry numbering 0 constraints).map (·.1) ↔
      ∃ c ∈ constraints, clause ∈ c.hardClauses registry numbering := by
  rw [List.mem_map]
  constructor
  · rintro ⟨⟨found, origin⟩, hmem, rfl⟩
    obtain ⟨i, c, hget, -, hclause⟩ := mem_traced.mp hmem
    exact ⟨c, List.mem_of_getElem? hget, hclause⟩
  · rintro ⟨c, hc, hclause⟩
    obtain ⟨i, hget⟩ := List.getElem?_of_mem hc
    exact ⟨(clause, some i), mem_traced.mpr ⟨i, c, hget, rfl, hclause⟩, rfl⟩

theorem satisfies_traced {registry : Registry} {numbering : Numbering}
    {constraints : List Constraint} {valuation : Valuation} :
    Satisfies valuation ((traced registry numbering 0 constraints).map (·.1)) ↔
      ∀ c ∈ constraints, Satisfies valuation (c.hardClauses registry numbering) := by
  constructor
  · intro h c hc clause hclause
    exact h clause (mem_map_fst_traced.mpr ⟨c, hc, hclause⟩)
  · intro h clause hclause
    obtain ⟨c, hc, hmem⟩ := mem_map_fst_traced.mp hclause
    exact h c hc clause hmem

theorem encodeFrom_cons_hard {registry : Registry} {numbering : Numbering} {position : Nat}
    {c : Constraint} (hsoft : c.isSoft = false) (rest : List Constraint) :
    encodeFrom registry numbering position (c :: rest) = (do
      let clauses ← (c.clauses registry numbering).1
      let (hard, soft, after) ← encodeFrom registry (c.clauses registry numbering).2
        (position + 1) rest
      return (clauses.map (·, some position) ++ hard, soft, after)) := by
  cases c <;> first | rfl | cases hsoft

-- A constraint is encoded when less potential slots have variables than in the end.
theorem encodeFrom_eq_ok_iff {registry : Registry} {constraints : List Constraint}
    {numbering : Numbering} {position : Nat} {after : Numbering}
    (hafter : after = numbering.useAll (Constraint.potentialsOfAll constraints))
    {result : List (Clause × Option Nat) × List (Clause × Nat) × Numbering} :
    encodeFrom registry numbering position constraints = .ok result ↔
      (∀ c ∈ constraints, c.Encoded registry after) ∧
        result = (traced registry after position constraints,
          constraints.filterMap (Constraint.softClause? after), after) := by
  induction constraints generalizing numbering position result with
  | nil =>
      subst hafter
      simp [encodeFrom, traced, eq_comm]
  | cons c rest ih =>
      rw [Constraint.potentialsOfAll_cons, Numbering.useAll_append] at hafter
      have htraced : traced registry after position (c :: rest) =
          (c.hardClauses registry after).map (·, some position) ++
            traced registry after (position + 1) rest := rfl
      rw [List.forall_mem_cons, htraced, List.filterMap_cons]
      cases hsoft : c.isSoft with
      | true =>
          rw [Constraint.hardClauses_of_soft hsoft,
            and_iff_right (Constraint.encoded_of_soft hsoft)]
          obtain ⟨subject, goal, q, weight, location, rfl⟩ :=
            Constraint.eq_preference_of_isSoft hsoft
          have hliteral : after.literal subject q = numbering.literal subject q := by
            rw [hafter]
            exact Numbering.literal_useAll numbering _ subject q
          have hrest := @ih numbering (position + 1) hafter
          rw [encodeFrom, Except.bind_return_eq_ok]
          simp only [hrest, Constraint.softClause?, hliteral]
          constructor
          · rintro ⟨_, ⟨hall, rfl⟩, rfl⟩
            exact ⟨hall, rfl⟩
          · rintro ⟨hall, rfl⟩
            exact ⟨_, ⟨hall, rfl⟩, rfl⟩
      | false =>
          rw [Constraint.softClause?_eq_none hsoft, encodeFrom_cons_hard hsoft, Except.bind_eq_ok]
          -- Later potentials do not move the variables that are there already.
          have hclauses : ∀ clauses, (c.clauses registry numbering).1 = .ok clauses ↔
              c.clausesWith registry after = .ok clauses := by
            intro clauses
            rw [hafter]
            exact Constraint.clauses_eq_ok_iff _
          constructor
          · rintro ⟨clauses, hc, h⟩
            obtain ⟨_, hothers, rfl⟩ := Except.bind_return_eq_ok.mp h
            rw [Constraint.clauses_snd_of_ok hc, ih hafter] at hothers
            obtain ⟨hrest, rfl⟩ := hothers
            have hc := (hclauses clauses).mp hc
            rw [Constraint.hardClauses_of_ok hsoft hc]
            exact ⟨⟨Constraint.encoded_of_ok hc, hrest⟩, rfl⟩
          · rintro ⟨⟨hc, hrest⟩, rfl⟩
            have hc := (hclauses _).mpr (hc hsoft)
            have hothers := (@ih _ (position + 1) hafter _).mpr ⟨hrest, rfl⟩
            rw [← Constraint.clauses_snd_of_ok hc] at hothers
            exact ⟨_, hc, Except.bind_return_eq_ok.mpr ⟨_, hothers, rfl⟩⟩

-- The only failure of parts that can be encoded is that there is no room.
theorem encodeFrom_eq_error {registry : Registry} {constraints : List Constraint}
    (h : ∀ c ∈ constraints, c.Encodable registry) {numbering : Numbering} {position : Nat}
    {e : Inconsistency} (he : encodeFrom registry numbering position constraints = .error e) :
    e = .fault .overflow := by
  induction constraints generalizing numbering position with
  | nil => cases he
  | cons c rest ih =>
      obtain ⟨hc, hrest⟩ := List.forall_mem_cons.mp h
      cases hsoft : c.isSoft with
      | true =>
          obtain ⟨_, _, _, _, _, rfl⟩ := Constraint.eq_preference_of_isSoft hsoft
          rw [encodeFrom] at he
          exact ih hrest (Except.bind_return_eq_error.mp he)
      | false =>
          rw [encodeFrom_cons_hard hsoft] at he
          rcases Except.bind_eq_error.mp he with he | ⟨clauses, -, he⟩
          · have hideal := hc.idealClauses_eq hsoft
              (numbering.useAll (c.usedPotentials registry))
            rcases Constraint.clausesWith_cutShort registry
              (numbering.useAll (c.usedPotentials registry)) c with hcut | hcut
            · cases he.symm.trans (hcut.trans hideal)
            · exact Except.error.inj (he.symm.trans hcut)
          · exact ih hrest (Except.bind_return_eq_error.mp he)

def numberingOf (registry : Registry) (constraints : List Constraint) : Numbering :=
  (Numbering.ofRegistry registry).useAll (Constraint.potentialsOfAll constraints)

theorem numberingOf_fits {registry : Registry} {constraints : List Constraint}
    (h : registry.slots.size * registry.lattice.size +
      (Constraint.potentialsOfAll constraints).dedup.length < 0x80000000) :
    (numberingOf registry constraints).Fits registry := by
  rw [← Numbering.length_potentials_useAll_ofRegistry registry] at h
  exact Numbering.fits_useAll_ofRegistry h

theorem covered_numberingOf (registry : Registry) {constraints : List Constraint} {c : Constraint}
    (hc : c ∈ constraints) : c.Covered (numberingOf registry constraints) :=
  fun _ hp => Numbering.mem_useAll.mpr (.inr (Constraint.mem_potentialsOfAll.mpr ⟨c, hc, hp⟩))

def HasRoom (registry : Registry) (constraints : List Constraint) : Prop :=
  ∀ c ∈ constraints, c.HasRoom registry (numberingOf registry constraints)

instance (registry : Registry) (constraints : List Constraint) :
    Decidable (HasRoom registry constraints) :=
  inferInstanceAs
    (Decidable (∀ c ∈ constraints, c.HasRoom registry (numberingOf registry constraints)))

def encoding (registry : Registry) (constraints : List Constraint) : Cnf :=
  let numbering := numberingOf registry constraints
  { count := numbering.count
    size := registry.lattice.size
    hard := traced registry numbering 0 constraints ++
      (registry.variableSlots.flatMap fun id =>
        numbering.wellFormedness registry.lattice id).map (·, none)
    soft := constraints.filterMap (Constraint.softClause? numbering)
    slots := registry.variableSlots }

-- Encoding fails in one of two places: in a constraint, or in the width check of the rows.
theorem encode_eq_ok_iff {registry : Registry} {constraints : List Constraint} {cnf : Cnf} :
    encode registry constraints = .ok cnf ↔
      (∀ c ∈ constraints, c.Encoded registry (numberingOf registry constraints)) ∧
        Words (registry.variableSlots.flatMap fun id =>
          (numberingOf registry constraints).wellFormedness registry.lattice id) ∧
        cnf = encoding registry constraints := by
  rw [encode, Except.bind_eq_ok]
  simp only [@encodeFrom_eq_ok_iff registry constraints _ _ _ rfl]
  constructor
  · rintro ⟨_, ⟨hencoded, rfl⟩, h⟩
    obtain ⟨_, hchecked, rfl⟩ := Except.bind_return_eq_ok.mp h
    obtain ⟨hwords, rfl⟩ := Clause.checked_eq_ok.mp (Except.mapError_eq_ok.mp hchecked)
    exact ⟨hencoded, hwords, rfl⟩
  · rintro ⟨hencoded, hwords, rfl⟩
    refine ⟨_, ⟨hencoded, rfl⟩, Except.bind_return_eq_ok.mpr ⟨_, ?_, rfl⟩⟩
    exact Except.mapError_eq_ok.mpr (Clause.checked_of_words hwords)

theorem encodable_of_encode {registry : Registry} {constraints : List Constraint} {cnf : Cnf}
    (h : encode registry constraints = .ok cnf) :
    (∀ c ∈ constraints, c.Encodable registry) ∧ cnf = encoding registry constraints :=
  have ⟨hencoded, _, heq⟩ := encode_eq_ok_iff.mp h
  ⟨fun c hc => (hencoded c hc).encodable, heq⟩

theorem encode_eq_error {registry : Registry} {constraints : List Constraint}
    (h : ∀ c ∈ constraints, c.Encodable registry) {e : Inconsistency}
    (he : encode registry constraints = .error e) : e = .fault .overflow := by
  rcases Except.bind_eq_error.mp he with he | ⟨_, -, he⟩
  · exact encodeFrom_eq_error h he
  · have hchecked := Except.bind_return_eq_error.mp he
    rw [Clause.checked] at hchecked
    split at hchecked
    · cases hchecked
    · cases hchecked
      rfl

theorem map_fst_encoding (registry : Registry) (constraints : List Constraint) :
    (encoding registry constraints).hard.map (·.1) =
      (traced registry (numberingOf registry constraints) 0 constraints).map (·.1) ++
        registry.variableSlots.flatMap fun id =>
          (numberingOf registry constraints).wellFormedness registry.lattice id := by
  simp [encoding, Function.comp_def]

-- Clauses whose solutions are those of some constraints: a valuation satisfies them exactly when
-- it says the same as an interpretation that meets the constraints.
structure Represents (cnf : Cnf) (registry : Registry) (numbering : Numbering)
    (constraints : List Constraint) : Prop where
  count_eq : cnf.count = numbering.count
  size_eq : cnf.size = registry.lattice.size
  slots_eq : cnf.slots = registry.variableSlots
  within : Within cnf.count (cnf.hard.map (·.1))
  satisfies_iff : ∀ valuation, Satisfies valuation (cnf.hard.map (·.1)) ↔
    ∃ interpretation : Interpretation, interpretation.InRange registry ∧
      numbering.Reads registry interpretation valuation ∧
      ∀ c ∈ constraints, interpretation.eval registry c = true
  soft_eq : cnf.soft = constraints.filterMap (Constraint.softClause? numbering)

-- Values for which each slot takes one qualifier can be read as an interpretation.
theorem satisfies_wellFormedness_iff {registry : Registry} {numbering : Numbering}
    (hwf : registry.WellFormed) (hfits : numbering.Fits registry) (valuation : Valuation) :
    Satisfies valuation
        (registry.variableSlots.flatMap fun id => numbering.wellFormedness registry.lattice id) ↔
      ∃ interpretation : Interpretation, interpretation.InRange registry ∧
        numbering.Reads registry interpretation valuation := by
  have hrow : ∀ id ∈ registry.variableSlots,
      Satisfies valuation (numbering.wellFormedness registry.lattice id) ↔
        ∃ chosen, numbering.Takes registry.lattice valuation id chosen :=
    fun id hid =>
      Numbering.satisfies_wellFormedness ((hfits.bounded hwf).row id hid) _
  rw [satisfies_flatMap]
  constructor
  · intro h
    have htakes := fun id hid => (hrow id hid).mp (h id hid)
    choose! choice hchoice using htakes
    refine ⟨⟨choice, fun p => Literal.holds valuation (numbering.presence p)⟩, ?_, ?_, ?_⟩
    · exact fun id hid => (hchoice id hid).lt
    · exact fun id hid => (hchoice id hid).holds
    · intro p _
      dsimp only
  · rintro ⟨interpretation, hrange, hreads⟩ id hid
    exact (hrow id hid).mpr ⟨_, (hreads.mirrors (hfits.bounded hwf)).takes hrange hid⟩

theorem oneHot_within {registry : Registry} {numbering : Numbering} (hwf : registry.WellFormed)
    (hfits : numbering.Fits registry) :
    Within numbering.count
      (registry.variableSlots.flatMap fun id => numbering.wellFormedness registry.lattice id) := by
  refine List.forall_mem_flatMap.mpr fun id hid => Numbering.exactlyOne_within ?_
  exact List.forall_mem_map.mpr fun q hq =>
    (hfits.bounded hwf).row id hid q (List.mem_range.mp hq)

section Encoding

variable {registry : Registry} (hwf : registry.WellFormed) {constraints : List Constraint}
  (hencodable : ∀ c ∈ constraints, c.Encodable registry)
  (hfits : (numberingOf registry constraints).Fits registry)
include hwf hencodable hfits

theorem satisfies_traced_iff_eval {interpretation : Interpretation} {valuation : Valuation}
    (hrange : interpretation.InRange registry)
    (hreads : (numberingOf registry constraints).Reads registry interpretation valuation) :
    Satisfies valuation
        ((traced registry (numberingOf registry constraints) 0 constraints).map (·.1)) ↔
      ∀ c ∈ constraints, interpretation.eval registry c = true := by
  rw [satisfies_traced]
  exact forall₂_congr fun c hc => (hencodable c hc).satisfies_hardClauses
    (hreads.mirrors (hfits.bounded hwf)) hwf hrange (covered_numberingOf registry hc)

-- The rows make the valuation read some interpretation, and under it the traced clauses mean the
-- constraints.
theorem encoding_represents :
    (encoding registry constraints).Represents registry (numberingOf registry constraints)
      constraints := by
  have hbounded := hfits.bounded hwf
  refine ⟨rfl, rfl, rfl, ?_, fun valuation => ?_, rfl⟩
  · rw [map_fst_encoding]
    refine List.forall_mem_append.mpr ⟨fun clause hclause => ?_, oneHot_within hwf hfits⟩
    obtain ⟨c, hc, hmem⟩ := mem_map_fst_traced.mp hclause
    exact (hencodable c hc).hardClauses_within hbounded hwf (covered_numberingOf registry hc)
      clause hmem
  · rw [map_fst_encoding, satisfies_append, satisfies_wellFormedness_iff hwf hfits]
    constructor
    · rintro ⟨htraced, interpretation, hrange, hreads⟩
      exact ⟨interpretation, hrange, hreads,
        (satisfies_traced_iff_eval hwf hencodable hfits hrange hreads).mp htraced⟩
    · rintro ⟨interpretation, hrange, hreads, heval⟩
      exact ⟨(satisfies_traced_iff_eval hwf hencodable hfits hrange hreads).mpr heval,
        interpretation, hrange, hreads⟩

-- Where all numbers fit, the clauses are made exactly if there is room for them.
theorem encode_eq : encode registry constraints =
    if HasRoom registry constraints then .ok (encoding registry constraints)
    else .error (.fault .overflow) := by
  have hwords := (oneHot_within hwf hfits).words hfits.count_lt
  have hencoded : (∀ c ∈ constraints, c.Encoded registry (numberingOf registry constraints)) ↔
      HasRoom registry constraints := by
    refine forall₂_congr fun c hc => ?_
    rw [Constraint.encoded_iff hfits hwf (covered_numberingOf registry hc),
      and_iff_right (hencodable c hc)]
  split
  · rename_i hroom
    exact encode_eq_ok_iff.mpr ⟨hencoded.mpr hroom, hwords, rfl⟩
  · rename_i hroom
    cases hencode : encode registry constraints with
    | error e => rw [encode_eq_error hencodable hencode]
    | ok cnf => exact absurd (hencoded.mp (encode_eq_ok_iff.mp hencode).1) hroom

theorem encode_isOk_iff :
    (∃ cnf, encode registry constraints = .ok cnf) ↔ HasRoom registry constraints := by
  rw [encode_eq hwf hencodable hfits]
  split
  · rename_i hroom
    exact iff_of_true ⟨_, rfl⟩ hroom
  · rename_i hroom
    refine iff_of_false ?_ hroom
    rintro ⟨cnf, h⟩
    cases h

theorem encode_of_hasRoom (hroom : HasRoom registry constraints) :
    encode registry constraints = .ok (encoding registry constraints) := by
  rw [encode_eq hwf hencodable hfits, if_pos hroom]

end Encoding

-- Potential slots are numbered behind the rows of all slots, each once.
theorem encode_represents {registry : Registry} (hwf : registry.WellFormed)
    {constraints : List Constraint} (hbuilt : ∀ c ∈ constraints, Constraint.Built registry c)
    (hcount : registry.slots.size * registry.lattice.size +
      (Constraint.potentialsOfAll constraints).dedup.length < 0x80000000)
    (hroom : HasRoom registry constraints) :
    ∃ cnf numbering, encode registry constraints = .ok cnf ∧ numbering.Fits registry ∧
      cnf.Represents registry numbering constraints := by
  have hencodable : ∀ c ∈ constraints, c.Encodable registry := fun c hc => (hbuilt c hc).succeeds
  have hfits := numberingOf_fits hcount
  exact ⟨_, _, encode_of_hasRoom hwf hencodable hfits hroom, hfits,
    encoding_represents hwf hencodable hfits⟩

end Cnf

end Qualify
