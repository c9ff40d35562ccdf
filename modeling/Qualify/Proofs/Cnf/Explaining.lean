import Qualify.Proofs.Clause.Shape
import Qualify.Proofs.Cnf.Solving

namespace Qualify

namespace Explanation

variable {constraints : List Constraint} {positions : List Nat}

theorem mem_select {c : Constraint} :
    c ∈ select constraints positions ↔ ∃ i ∈ positions, constraints[i]? = some c := by
  unfold select
  rw [List.mem_map]
  constructor
  · rintro ⟨⟨found, i⟩, hmem, rfl⟩
    obtain ⟨hfound, hi⟩ := List.mem_filter.mp hmem
    exact ⟨i, List.contains_iff_mem.mp hi, List.mem_zipIdx_iff_getElem?.mp hfound⟩
  · rintro ⟨i, hi, hget⟩
    refine ⟨(c, i), List.mem_filter.mpr ⟨List.mem_zipIdx_iff_getElem?.mpr hget, ?_⟩, rfl⟩
    exact List.contains_iff_mem.mpr hi

theorem select_sublist (constraints : List Constraint) (positions : List Nat) :
    (select constraints positions).Sublist constraints := by
  have hsublist : (select constraints positions).Sublist (constraints.zipIdx.map Prod.fst) :=
    List.filter_sublist.map _
  rwa [List.zipIdx_map_fst] at hsublist

theorem select_sublist_of_subset {others : List Nat} (h : positions ⊆ others) :
    (select constraints positions).Sublist (select constraints others) := by
  refine List.Sublist.map _ (List.monotone_filter_right _ fun entry hentry => ?_)
  exact List.contains_iff_mem.mpr (h (List.contains_iff_mem.mp hentry))

end Explanation

-- Constraints that cannot be met together, though they can without any one of them.
structure Constraint.MinimalConflict (registry : Registry) (constraints : List Constraint) :
    Prop where
  unmet : ∀ interpretation : Interpretation, ¬interpretation.Meets registry constraints
  needed : ∀ i < constraints.length, ∃ interpretation : Interpretation,
    interpretation.Meets registry (constraints.eraseIdx i)

theorem exists_sublist_eraseIdx {α : Type} {items others : List α} (h : others.Sublist items)
    (hne : others ≠ items) : ∃ i < items.length, others.Sublist (items.eraseIdx i) := by
  induction h with
  | slnil => exact absurd rfl hne
  | @cons others items a hsublist => exact ⟨0, Nat.zero_lt_succ _, hsublist⟩
  | @cons_cons others items a hsublist ih =>
      obtain ⟨i, hi, hrest⟩ := ih fun heq => hne (heq ▸ rfl)
      exact ⟨i + 1, Nat.succ_lt_succ hi, hrest.cons_cons a⟩

-- There is no smaller conflict inside.
theorem Constraint.MinimalConflict.eq_of_sublist {registry : Registry}
    {constraints others : List Constraint} (h : MinimalConflict registry constraints)
    (hsublist : others.Sublist constraints)
    (hunmet : ∀ interpretation : Interpretation, ¬interpretation.Meets registry others) :
    others = constraints := by
  by_contra hne
  obtain ⟨i, hi, hrest⟩ := exists_sublist_eraseIdx hsublist hne
  obtain ⟨interpretation, hmeets⟩ := h.needed i hi
  exact hunmet interpretation ⟨hmeets.inRange, fun c hc => hmeets.holds c (hrest.subset hc)⟩

namespace Cnf

section Origins

variable {cnf : Cnf} {constraints : List Constraint} {positions : List Nat}

theorem mem_explanation {c : Constraint} :
    c ∈ (cnf.explanation constraints positions).constraints ↔
      ∃ i ∈ positions, ∃ clause k, cnf.hard[i]? = some (clause, some k) ∧
        constraints[k]? = some c := by
  simp only [explanation, Explanation.mem_select, List.mem_filterMap, Option.map_eq_some_iff]
  constructor
  · rintro ⟨k, ⟨origin, ⟨i, hi, ⟨clause, found⟩, hget, rfl⟩, horigin⟩, hk⟩
    obtain rfl : found = some k := horigin
    exact ⟨i, hi, clause, k, hget, hk⟩
  · rintro ⟨i, hi, clause, k, hget, hk⟩
    exact ⟨k, ⟨some k, ⟨i, hi, (clause, some k), hget, rfl⟩, rfl⟩, hk⟩

theorem wellFormedness_of_mem {i : Nat} (hi : i ∈ positions) {clause : Clause}
    (hget : cnf.hard[i]? = some (clause, none)) :
    (cnf.explanation constraints positions).wellFormedness = true := by
  simp only [explanation, List.contains_iff_mem, List.mem_filterMap, Option.map_eq_some_iff]
  exact ⟨i, hi, (clause, none), hget, rfl⟩

end Origins

def positionsFrom (cnf : Cnf) (chosen : List Nat) : List Nat :=
  (List.range cnf.hard.length).filter fun i =>
    ((cnf.hard[i]?).bind (·.2)).all chosen.contains

theorem mem_positionsFrom {cnf : Cnf} {chosen : List Nat} {i : Nat} :
    i ∈ cnf.positionsFrom chosen ↔ ∃ clause origin, cnf.hard[i]? = some (clause, origin) ∧
      origin.all chosen.contains = true := by
  rw [positionsFrom, List.mem_filter, List.mem_range]
  constructor
  · rintro ⟨hlt, hall⟩
    rw [List.getElem?_eq_getElem hlt] at hall
    exact ⟨_, _, List.getElem?_eq_getElem hlt, hall⟩
  · rintro ⟨clause, origin, hget, hall⟩
    refine ⟨(List.getElem?_eq_some_iff.mp hget).1, ?_⟩
    rw [hget]
    exact hall

abbrev explanationAt (registry : Registry) (constraints : List Constraint) (positions : List Nat) :
    Explanation :=
  (encoding registry constraints).explanation constraints positions

section Encoding

variable {registry : Registry} {constraints : List Constraint} {positions : List Nat}

theorem mem_encoding {clause : Clause} {origin : Option Nat} :
    (clause, origin) ∈ (encoding registry constraints).hard ↔
      (∃ i c, constraints[i]? = some c ∧ origin = some i ∧
        clause ∈ c.hardClauses registry (numberingOf registry constraints)) ∨
      (origin = none ∧ clause ∈ registry.variableSlots.flatMap fun id =>
        (numberingOf registry constraints).wellFormedness registry.lattice id) := by
  rw [encoding, List.mem_append, mem_traced]
  refine or_congr_right ?_
  rw [List.mem_map]
  constructor
  · rintro ⟨found, hfound, heq⟩
    cases heq
    exact ⟨rfl, hfound⟩
  · rintro ⟨rfl, hclause⟩
    exact ⟨clause, hclause, rfl⟩

-- The clauses that say nothing of the constraints stand behind all others.
theorem filter_encoding (registry : Registry) (constraints : List Constraint) :
    (encoding registry constraints).hard.filter (·.2.isSome) =
      traced registry (numberingOf registry constraints) 0 constraints := by
  rw [encoding, List.filter_append]
  have htraced : ∀ entry ∈ traced registry (numberingOf registry constraints) 0 constraints,
      entry.2.isSome = true := by
    rintro ⟨clause, origin⟩ hentry
    obtain ⟨i, c, -, rfl, -⟩ := mem_traced.mp hentry
    rfl
  rw [List.filter_eq_self.mpr htraced, List.filter_eq_nil_iff.mpr, List.append_nil]
  rintro ⟨clause, origin⟩ hentry
  obtain ⟨found, -, heq⟩ := List.mem_map.mp hentry
  cases heq
  simp

theorem isSoft_of_mem_explanation {c : Constraint}
    (hc : c ∈ (explanationAt registry constraints positions).constraints) : c.isSoft = false := by
  obtain ⟨i, -, clause, k, hget, hk⟩ := mem_explanation.mp hc
  rcases mem_encoding.mp (List.mem_of_getElem? hget) with ⟨j, found, hj, heq, hclause⟩ | ⟨heq, -⟩
  · cases heq
    cases hj.symm.trans hk
    by_contra hsoft
    rw [Constraint.hardClauses_of_soft (by simpa using hsoft)] at hclause
    cases hclause
  · cases heq

theorem mem_of_mem_explanation {c : Constraint}
    (hc : c ∈ (explanationAt registry constraints positions).constraints) : c ∈ constraints :=
  (Explanation.select_sublist constraints _).subset hc

theorem explanation_sublist :
    (explanationAt registry constraints positions).constraints.Sublist
      (constraints.filter (!·.isSoft)) := by
  have hsublist : (explanationAt registry constraints positions).constraints.Sublist constraints :=
    Explanation.select_sublist constraints _
  have hhard : ∀ c ∈ (explanationAt registry constraints positions).constraints,
      (!c.isSoft) = true := by
    intro c hc
    rw [isSoft_of_mem_explanation hc]
    rfl
  have hfilter := hsublist.filter (!·.isSoft)
  rwa [List.filter_eq_self.mpr hhard] at hfilter

-- Chosen clauses come from the constraints of their explanation, or they say that a slot takes one
-- qualifier.
theorem satisfies_pick_encoding {valuation : Valuation}
    (hconstraints : ∀ c ∈ (explanationAt registry constraints positions).constraints,
      Satisfies valuation (c.hardClauses registry (numberingOf registry constraints)))
    (hrows : (explanationAt registry constraints positions).wellFormedness = true →
      Satisfies valuation (registry.variableSlots.flatMap fun id =>
        (numberingOf registry constraints).wellFormedness registry.lattice id)) :
    Satisfies valuation ((encoding registry constraints).selection.pick positions) := by
  refine Sat.Selection.satisfies_pick.mpr fun i hi clause hclause => ?_
  rw [selection, List.getElem?_map, Option.map_eq_some_iff] at hclause
  obtain ⟨⟨found, origin⟩, hget, rfl⟩ := hclause
  rcases mem_encoding.mp (List.mem_of_getElem? hget) with ⟨k, c, hk, rfl, hmem⟩ | ⟨rfl, hmem⟩
  · exact hconstraints c (mem_explanation.mpr ⟨i, hi, found, k, hget, hk⟩) found hmem
  · exact hrows (wellFormedness_of_mem hi hget) found hmem

variable (hwf : registry.WellFormed) (hencodable : ∀ c ∈ constraints, c.Encodable registry)
  (hfits : (numberingOf registry constraints).Fits registry)
  (hconflict : ∀ valuation,
    ¬Satisfies valuation ((encoding registry constraints).selection.pick positions))
include hwf hencodable hfits hconflict

theorem explanation_unmet (interpretation : Interpretation) :
    ¬interpretation.Meets registry (explanationAt registry constraints positions).constraints := by
  intro hmeets
  have hreads := Numbering.reads_assignment hfits hwf interpretation
  refine hconflict ((numberingOf registry constraints).assignment registry interpretation)
    (satisfies_pick_encoding (fun c hc => ?_) fun _ => ?_)
  · have hmem := mem_of_mem_explanation hc
    exact ((hencodable c hmem).satisfies_hardClauses (hreads.mirrors (hfits.bounded hwf)) hwf
      hmeets.inRange (covered_numberingOf registry hmem)).mpr (hmeets.holds c hc)
  · exact (satisfies_wellFormedness_iff hwf hfits _).mpr ⟨interpretation, hmeets.inRange, hreads⟩

-- Potential slots have other variables when the constraints of the explanation are encoded alone.
theorem explanation_conflict {numbering : Numbering} (hfits' : numbering.Fits registry)
    (hcovered : ∀ c ∈ (explanationAt registry constraints positions).constraints,
      c.Covered numbering)
    (hrows : (explanationAt registry constraints positions).wellFormedness = false)
    (valuation : Valuation) :
    ¬∀ c ∈ (explanationAt registry constraints positions).constraints,
      Satisfies valuation (c.hardClauses registry numbering) := by
  intro h
  have hagree := Numbering.agree_transfer hwf hfits hfits' valuation
  refine hconflict ((numberingOf registry constraints).transfer numbering valuation)
    (satisfies_pick_encoding (fun c hc => ?_) fun htrue => ?_)
  · have hmem := mem_of_mem_explanation hc
    have hsoft := isSoft_of_mem_explanation hc
    exact (Constraint.satisfies_idealClauses_of_agree hagree hwf c
      (covered_numberingOf registry hmem) (hcovered c hc)
      ((hencodable c hmem).idealClauses_eq hsoft _)
      ((hencodable c hmem).idealClauses_eq hsoft _)).mpr (h c hc)
  · cases hrows.symm.trans htrue

end Encoding

section Explain

variable {cnf : Cnf} {registry : Registry} {numbering : Numbering} {constraints : List Constraint}
  (hcnf : cnf.Represents registry numbering constraints)
include hcnf

theorem Represents.isWithin_of_hard (hsoft : cnf.soft = []) : cnf.problem.isWithin = true := by
  simp only [Sat.Problem.isWithin, problem, Bool.and_eq_true, List.all_eq_true]
  exact ⟨hcnf.within, by simp [hsoft]⟩

theorem Represents.selection_isWithin : cnf.selection.isWithin = true := by
  simp only [Sat.Selection.isWithin, selection, List.all_eq_true]
  exact hcnf.within

theorem Represents.explain_eq {sat : Sat.Procedure} (hsound : sat.Sound)
    (hunsat : ∀ valuation, ¬Satisfies valuation (cnf.hard.map (·.1))) :
    ∃ positions, cnf.explain sat constraints = .ok (cnf.explanation constraints positions) ∧
      cnf.selection.MinimalConflict positions := by
  have hwithin := hcnf.selection_isWithin
  rcases Sat.Selection.minimalSubset_cases hwithin hsound.decides with
    ⟨⟨valuation, hvaluation⟩, -⟩ | ⟨-, positions, hsubset, hminimal⟩
  · exact absurd hvaluation (hunsat valuation)
  · refine ⟨positions, ?_, hminimal⟩
    rw [explain, if_pos hwithin, hsubset]

-- Which conflict of clauses is explained is up to the procedure: all of them can be.
theorem Represents.explain_attained {positions : List Nat}
    (h : cnf.selection.MinimalConflict positions) :
    ∃ sat : Sat.Procedure, sat.Sound ∧ sat.Fair ∧
      cnf.explain sat constraints = .ok (cnf.explanation constraints positions) := by
  have hwithin := hcnf.selection_isWithin
  refine ⟨Sat.blaming Sat.bySearch (positions.map cnf.selection.selector),
    Sat.blaming_sound Sat.bySearch_sound, Sat.blaming_fair Sat.bySearch_fair, ?_⟩
  rw [explain, if_pos hwithin,
    Sat.Selection.minimalSubset_blaming hwithin Sat.bySearch_sound h]

end Explain

section Attained

variable {registry : Registry} {constraints : List Constraint} (hwf : registry.WellFormed)
  (hencodable : ∀ c ∈ constraints, c.Encodable registry)
  (hfits : (numberingOf registry constraints).Fits registry)
include hwf hencodable hfits

-- The clauses of conflicting constraints are in conflict when each slot takes one qualifier.
theorem conflict_of_unmet {chosen : List Nat}
    (hunmet : ∀ interpretation : Interpretation,
      ¬interpretation.Meets registry (Explanation.select constraints chosen))
    (valuation : Valuation) :
    ¬∀ clause origin, (clause, origin) ∈ (encoding registry constraints).hard →
      origin.all chosen.contains = true → Clause.holds valuation clause = true := by
  intro h
  obtain ⟨interpretation, hrange, hreads⟩ :=
    (satisfies_wellFormedness_iff hwf hfits valuation).mp fun clause hclause =>
      h clause none (mem_encoding.mpr (.inr ⟨rfl, hclause⟩)) rfl
  refine hunmet interpretation ⟨hrange, fun c hc => ?_⟩
  obtain ⟨k, hk, hget⟩ := Explanation.mem_select.mp hc
  have hmem := List.mem_of_getElem? hget
  refine ((hencodable c hmem).satisfies_hardClauses (hreads.mirrors (hfits.bounded hwf)) hwf hrange
    (covered_numberingOf registry hmem)).mp fun clause hclause => ?_
  exact h clause (some k) (mem_encoding.mpr (.inl ⟨k, c, hget, rfl, hclause⟩))
    (List.contains_iff_mem.mpr hk)

-- Every conflict of constraints from which none can be missing is what some conflict of clauses
-- is explained by.
theorem exists_explanation_eq {chosen : List Nat}
    (h : Constraint.MinimalConflict registry (Explanation.select constraints chosen)) :
    ∃ positions, (encoding registry constraints).selection.MinimalConflict positions ∧
      (explanationAt registry constraints positions).constraints =
        Explanation.select constraints chosen := by
  have hconflict : ∀ valuation, ¬Satisfies valuation
      ((encoding registry constraints).selection.pick
        ((encoding registry constraints).positionsFrom chosen)) := by
    intro valuation hvaluation
    refine conflict_of_unmet hwf hencodable hfits h.unmet valuation
      fun clause origin hentry horigin => ?_
    obtain ⟨i, hget⟩ := List.getElem?_of_mem hentry
    refine Sat.Selection.satisfies_pick.mp hvaluation i
      (mem_positionsFrom.mpr ⟨_, _, hget, horigin⟩) clause ?_
    rw [selection, List.getElem?_map, hget]
    rfl
  obtain ⟨positions, hsublist, hminimal⟩ := Sat.Selection.exists_minimalConflict
    (encoding_represents hwf hencodable hfits).selection_isWithin
    (List.pairwise_lt_range.sublist List.filter_sublist)
    (fun i hi => (List.length_map _).symm ▸ List.mem_range.mp (List.mem_filter.mp hi).1) hconflict
  refine ⟨positions, hminimal, h.eq_of_sublist (Explanation.select_sublist_of_subset ?_)
    (explanation_unmet hwf hencodable hfits hminimal.conflict)⟩
  intro k hk
  obtain ⟨origin, horigin, rfl⟩ := List.mem_filterMap.mp hk
  obtain ⟨i, hi, hget⟩ := List.mem_filterMap.mp horigin
  obtain ⟨⟨clause, found⟩, hget, rfl⟩ := Option.map_eq_some_iff.mp hget
  obtain ⟨_, _, hsame, hall⟩ := mem_positionsFrom.mp (hsublist.subset hi)
  cases hget.symm.trans hsame
  exact List.contains_iff_mem.mp hall

end Attained

theorem numberingOf_fits_of_subset {registry : Registry} {constraints others : List Constraint}
    (hsubset : others ⊆ constraints)
    (hcount : registry.slots.size * registry.lattice.size +
      (Constraint.potentialsOfAll constraints).dedup.length < 0x80000000) :
    (numberingOf registry others).Fits registry := by
  have hpotentials : (Constraint.potentialsOfAll others).dedup ⊆
      (Constraint.potentialsOfAll constraints).dedup := by
    intro p hp
    rw [List.mem_dedup, Constraint.mem_potentialsOfAll] at hp ⊢
    obtain ⟨c, hc, hvisit⟩ := hp
    exact ⟨c, hsubset hc, hvisit⟩
  have hlength := (List.subperm_of_subset (List.nodup_dedup _) hpotentials).length_le
  exact numberingOf_fits (by omega)

-- Some of the constraints take no more room than all of them, although the variables of their
-- potential slots have other numbers.
theorem encode_of_subset {registry : Registry} (hwf : registry.WellFormed)
    {constraints others : List Constraint}
    (hencoded : ∀ c ∈ constraints, c.Encoded registry (numberingOf registry constraints))
    (hfits : (numberingOf registry constraints).Fits registry)
    (hfits' : (numberingOf registry others).Fits registry) (hsubset : others ⊆ constraints) :
    encode registry others = .ok (encoding registry others) := by
  refine encode_eq_ok_iff.mpr
    ⟨fun c hc hsoft => ?_, (oneHot_within hwf hfits').words hfits'.count_lt, rfl⟩
  obtain ⟨clauses, hclauses⟩ := Constraint.clausesWith_isOk_of_fits hfits hfits'
    (covered_numberingOf registry (hsubset hc)) (covered_numberingOf registry hc)
    (hencoded c (hsubset hc) hsoft)
  exact Constraint.encoded_of_ok hclauses hsoft

-- An explanation is a conflict of its own, and one of clauses alone when it does not blame that
-- slots take one qualifier.
theorem explain_encode {registry : Registry} (hreachable : registry.Reachable)
    {constraints : List Constraint} {cnf : Cnf} (hencode : encode registry constraints = .ok cnf)
    (hcount : registry.slots.size * registry.lattice.size +
      (Constraint.potentialsOfAll constraints).dedup.length < 0x80000000)
    (hunsat : ∀ valuation, ¬Satisfies valuation (cnf.hard.map (·.1)))
    (sat : Sat.Procedure) (hsound : sat.Sound) :
    ∃ explanation again, cnf.explain sat constraints = .ok explanation ∧
      explanation.constraints.Sublist (constraints.filter (!·.isSoft)) ∧
      encode registry explanation.constraints = .ok again ∧
      (∀ other : Sat.Procedure, other.Sound → again.solve other = .ok none) ∧
      (explanation.wellFormedness = false → ∀ valuation,
        ¬Satisfies valuation ((again.hard.filter (·.2.isSome)).map (·.1))) := by
  have hwf := hreachable.wellFormed
  obtain ⟨hencoded, -, rfl⟩ := encode_eq_ok_iff.mp hencode
  have hencodable := fun c hc => (hencoded c hc).encodable
  have hfits := numberingOf_fits hcount
  obtain ⟨positions, hexplain, hminimal⟩ :=
    (encoding_represents hwf hencodable hfits).explain_eq hsound hunsat
  have hencodable' : ∀ c ∈ (explanationAt registry constraints positions).constraints,
      c.Encodable registry := fun c hc => hencodable c (mem_of_mem_explanation hc)
  have hfits' : (numberingOf registry
      (explanationAt registry constraints positions).constraints).Fits registry :=
    numberingOf_fits_of_subset (fun _ hc => mem_of_mem_explanation hc) hcount
  have hagain := encoding_represents hwf hencodable' hfits'
  -- There was room for all constraints, and there is for fewer.
  have hencode' := encode_of_subset hwf hencoded hfits hfits' fun _ hc => mem_of_mem_explanation hc
  refine ⟨_, _, hexplain, explanation_sublist, hencode', fun other hother => ?_,
    fun hrows valuation => ?_⟩
  · have hsoft : (encoding registry
        (explanationAt registry constraints positions).constraints).soft = [] :=
      List.filterMap_eq_nil_iff.mpr fun c hc =>
        Constraint.softClause?_eq_none (isSoft_of_mem_explanation hc)
    exact solve_of_unsatisfiable (hagain.isWithin_of_hard hsoft) hother (.inr hsoft)
      (hagain.unsatisfiable (explanation_unmet hwf hencodable hfits hminimal.conflict))
  · rw [filter_encoding, satisfies_traced]
    exact explanation_conflict hwf hencodable hfits hminimal.conflict hfits'
      (fun c hc => covered_numberingOf registry hc) hrows valuation

section Sample

open Registry

-- The last two constraints are in conflict. Without the first one, the presence of the sink has
-- another variable.
def sinkConflict : List Constraint :=
  [.existential sourceSlot [.relation .equality sinkSlot taintedSlot .missing] [] .missing,
    .preference sinkSlot untaintedSlot 1 3 .missing,
    .existential sinkSlot [.relation .equality sourceSlot taintedSlot .missing]
      [.relation .equality sourceSlot taintedSlot .missing] .missing,
    .relation .inequality sourceSlot taintedSlot .missing]

theorem sinkConflict_explain_encode :
    ∃ cnf explanation again, encode taint sinkConflict = .ok cnf ∧
      (∀ valuation, ¬Satisfies valuation (cnf.hard.map (·.1))) ∧
      cnf.explain Sat.bySearch sinkConflict = .ok explanation ∧
      explanation.constraints.length = 2 ∧ explanation.wellFormedness = false ∧
      encode taint explanation.constraints = .ok again ∧
      again.solve Sat.bySearch = .ok none ∧
      ∀ valuation, ¬Satisfies valuation ((again.hard.filter (·.2.isSome)).map (·.1)) := by
  have hencodable : ∀ c ∈ sinkConflict, c.Encodable taint := by decide
  have hfits : (numberingOf taint sinkConflict).Fits taint := numberingOf_fits (by decide)
  have hencode := encode_of_hasRoom taint_reachable.wellFormed hencodable hfits (by decide)
  have hunmet : ∀ interpretation : Interpretation,
      ¬interpretation.Meets taint sinkConflict := by
    intro interpretation hmeets
    have hholds := hmeets.holds
    simp only [sinkConflict, List.forall_mem_cons] at hholds
    obtain ⟨-, -, hequal, hdiffer, -⟩ := hholds
    simp only [Interpretation.eval, Interpretation.evalAll, ite_self, Bool.and_true] at hequal
    have htainted : interpretation.choice sourceSlot = 0 := eq_of_beq hequal
    exact bne_iff_ne.mp hdiffer htainted
  have hunsat := (encoding_represents taint_reachable.wellFormed hencodable hfits).unsatisfiable
    hunmet
  have hshape : (((encoding taint sinkConflict).explain Sat.bySearch sinkConflict).toOption.map
      fun explanation => (explanation.constraints.length, explanation.wellFormedness)) =
        some (2, false) := by
    decide +kernel
  obtain ⟨explanation, again, hexplain, -, hagain, hsolve, hconflict⟩ :=
    explain_encode taint_reachable hencode (by decide) hunsat Sat.bySearch Sat.bySearch_sound
  rw [hexplain] at hshape
  obtain ⟨hlength, hrows⟩ := Prod.mk.inj (Option.some.inj hshape)
  exact ⟨_, explanation, again, hencode, hunsat, hexplain, hlength, hrows, hagain,
    hsolve Sat.bySearch Sat.bySearch_sound, hconflict hrows⟩

end Sample

end Cnf

end Qualify
