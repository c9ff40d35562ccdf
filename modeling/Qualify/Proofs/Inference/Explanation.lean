import Qualify.Proofs.Cnf.Explaining
import Qualify.Proofs.Inference.Lifecycle

namespace Qualify.Solver

def solveThenExplain (solver : Solver) (sat : Sat.Procedure) (host : Host) :
    Except SolverError Explanation :=
  let (_, after, host) := solver.solve sat host
  (after.explain sat host).1

section Calls

variable {solver : Solver} (hbackend : solver.settings.backend = .maxSat)
  (htimeout : solver.settings.timeout = none) {cnf : Cnf}
  (hencode : Cnf.encode solver.registry solver.constraints = .ok cnf) {sat : Sat.Procedure}
include hbackend htimeout hencode

-- A solver that has found no solution is ready to be asked why.
theorem solve_eq_of_none (hnone : cnf.solve sat = .ok none) (host : Host) :
    ∃ after host', solver.solve sat host = (.ok none, after, host') ∧ after.SameTask solver ∧
      after.unsatisfiable = true ∧ after.state = .done := by
  have hsolve : (solver.solve sat host).1 = .ok none := by
    rw [solve_eq hbackend htimeout hencode, hnone]
    rfl
  have hattempted := (solver.solve_attempted sat host).1
  rw [hsolve] at hattempted
  exact ⟨_, _, Prod.ext hsolve rfl, hattempted.sameTask, hattempted.unsatisfiable_iff.mpr rfl,
    hattempted.state_eq⟩

-- With no time limit the question goes straight to the procedure.
theorem explain_eq (hunsatisfiable : solver.unsatisfiable = true) (hstate : solver.state = .done)
    (host : Host) :
    (solver.explain sat host).1 = cnf.explain sat solver.constraints := by
  obtain ⟨after, host', hserialize, hsame⟩ := serialize_eq solver hbackend hencode .explain host
  have hask : (after.enter .explaining).askWhy sat (.cnf cnf) host' =
      (cnf.explain sat solver.constraints, host'.now.2) := by
    have htimeout : (after.enter .explaining).settings.timeout = none :=
      hsame.settings_eq ▸ htimeout
    have hconstraints : (after.enter .explaining).constraints = solver.constraints :=
      hsame.constraints_eq
    simp only [askWhy, timed, Settings.limited, htimeout, hconstraints]
    rfl
  unfold explain
  rw [hunsatisfiable, hstate, hserialize]
  dsimp only
  rw [hask]
  rfl

theorem solveThenExplain_eq (hnone : cnf.solve sat = .ok none) (host : Host) :
    solver.solveThenExplain sat host = cnf.explain sat solver.constraints := by
  obtain ⟨after, host', hsolve, hsame, hunsatisfiable, hstate⟩ :=
    solve_eq_of_none hbackend htimeout hencode hnone host
  have hexplain : (after.explain sat host').1 = cnf.explain sat after.constraints :=
    explain_eq (hsame.settings_eq ▸ hbackend) (hsame.settings_eq ▸ htimeout)
      (hsame.registry_eq ▸ hsame.constraints_eq ▸ hencode) hunsatisfiable hstate host'
  rw [solveThenExplain, hsolve]
  dsimp only
  rw [hexplain, hsame.constraints_eq]

end Calls

-- An explanation is always a conflict of hard constraints. It is sure to be one from which none
-- can be missing exactly when this is true of what every minimal conflict of clauses comes from;
-- all conflicts of constraints from which none can be missing are among what can be explained.
theorem solveThenExplain_minimal_iff {solver : Solver}
    (hbackend : solver.settings.backend = .maxSat) (htimeout : solver.settings.timeout = none)
    (hreachable : solver.registry.Reachable)
    (hbuilt : ∀ c ∈ solver.constraints, Constraint.Built solver.registry c)
    (hcount : solver.registry.slots.size * solver.registry.lattice.size +
      (Constraint.potentialsOfAll solver.constraints).dedup.length < 0x80000000)
    (hroom : Cnf.HasRoom solver.registry solver.constraints)
    (hunmet : ∀ interpretation : Interpretation,
      ¬interpretation.Meets solver.registry solver.constraints) (host : Host) :
    ∃ cnf, Cnf.encode solver.registry solver.constraints = .ok cnf ∧
      (∀ sat : Sat.Procedure, sat.Sound → sat.Fair → ∃ explanation,
        solver.solveThenExplain sat host = .ok explanation ∧
        explanation.constraints.Sublist (solver.constraints.filter (!·.isSoft)) ∧
        ∀ interpretation : Interpretation,
          ¬interpretation.Meets solver.registry explanation.constraints) ∧
      ((∀ sat : Sat.Procedure, sat.Sound → sat.Fair → ∀ explanation,
          solver.solveThenExplain sat host = .ok explanation →
          Constraint.MinimalConflict solver.registry explanation.constraints) ↔
        ∀ positions, cnf.selection.MinimalConflict positions →
          Constraint.MinimalConflict solver.registry
            (cnf.explanation solver.constraints positions).constraints) ∧
      ∀ chosen, Constraint.MinimalConflict solver.registry
          (Explanation.select solver.constraints chosen) →
        ∃ sat : Sat.Procedure, sat.Sound ∧ sat.Fair ∧ ∃ explanation,
          solver.solveThenExplain sat host = .ok explanation ∧
          explanation.constraints = Explanation.select solver.constraints chosen := by
  have hwf := hreachable.wellFormed
  have hencodable : ∀ c ∈ solver.constraints, c.Encodable solver.registry :=
    fun c hc => (hbuilt c hc).succeeds
  have hfits := Cnf.numberingOf_fits hcount
  have hencode := Cnf.encode_of_hasRoom hwf hencodable hfits hroom
  have hcnf := Cnf.encoding_represents hwf hencodable hfits
  have hsame : ∀ sat : Sat.Procedure, sat.Sound → sat.Fair → solver.solveThenExplain sat host =
      (Cnf.encoding solver.registry solver.constraints).explain sat solver.constraints :=
    fun sat hsound hfair => solveThenExplain_eq hbackend htimeout hencode
      (hcnf.solve_of_not_meets hfits hwf hbuilt hsound hfair hunmet) host
  have hfound := fun (sat : Sat.Procedure) (hsound : sat.Sound) =>
    hcnf.explain_eq hsound (hcnf.unsatisfiable hunmet)
  refine ⟨_, hencode, fun sat hsound hfair => ?_, ⟨?_, ?_⟩, ?_⟩
  · obtain ⟨positions, hexplain, hminimal⟩ := hfound sat hsound
    exact ⟨_, (hsame sat hsound hfair).trans hexplain, Cnf.explanation_sublist,
      Cnf.explanation_unmet hwf hencodable hfits hminimal.conflict⟩
  · -- Some sound procedure blames exactly these clauses, and `hall` is about all procedures.
    intro hall positions hminimal
    obtain ⟨sat, hsound, hfair, hexplain⟩ := hcnf.explain_attained hminimal
    exact hall sat hsound hfair _ ((hsame sat hsound hfair).trans hexplain)
  · intro hall sat hsound hfair explanation hexplanation
    obtain ⟨positions, hexplain, hminimal⟩ := hfound sat hsound
    cases ((hsame sat hsound hfair).trans hexplain).symm.trans hexplanation
    exact hall positions hminimal
  · intro chosen hchosen
    obtain ⟨positions, hminimal, heq⟩ := Cnf.exists_explanation_eq hwf hencodable hfits hchosen
    obtain ⟨sat, hsound, hfair, hexplain⟩ := hcnf.explain_attained hminimal
    exact ⟨sat, hsound, hfair, _, (hsame sat hsound hfair).trans hexplain, heq⟩

section Sample

open Registry

-- Whether the source is present or not, the sink would have to be both tainted and untainted.
def contradictoryTaint : Constraint :=
  .existential sourceSlot bothTaints bothTaints (.code "io" 1 1 "")

-- The first constraint is in conflict with a part of the second one, which cannot hold anyway.
def overlappingTaint : List Constraint :=
  [.relation .inequality sinkSlot taintedSlot .missing, contradictoryTaint]

theorem overlappingTaint_built : ∀ c ∈ overlappingTaint, Constraint.Built taint c := by
  have hrelate : ∀ kind first second c,
      Constraint.relate taint kind first second .missing = .ok c → Constraint.Built taint c :=
    fun _ _ _ _ h => .relate .refl h
  have hfirst := hrelate .inequality sinkSlot taintedSlot _ rfl
  have hparts : ∀ part ∈ bothTaints, Constraint.Built taint part := by
    simp only [bothTaints, List.forall_mem_cons]
    exact ⟨hrelate .equality sinkSlot taintedSlot _ rfl,
      hrelate .equality sinkSlot untaintedSlot _ rfl, by simp⟩
  have hbranch : Constraint.branch taint sourceSlot bothTaints bothTaints =
      .ok contradictoryTaint := rfl
  have hsecond := Constraint.Built.branch .refl hparts hparts hbranch
  simp only [overlappingTaint, List.forall_mem_cons]
  exact ⟨hfirst, hsecond, by simp⟩

theorem contradictoryTaint_unmet (interpretation : Interpretation) :
    interpretation.eval taint contradictoryTaint = false := by
  by_contra h
  simp only [contradictoryTaint, bothTaints, Interpretation.eval, Interpretation.evalAll, ite_self,
    Bool.and_true, Bool.not_eq_false, Bool.and_eq_true] at h
  have htainted : interpretation.choice sinkSlot = 0 := eq_of_beq h.1
  have huntainted : interpretation.choice sinkSlot = 1 := eq_of_beq h.2
  cases htainted.symm.trans huntainted

theorem unmet_of_mem_contradictoryTaint {constraints : List Constraint}
    (h : contradictoryTaint ∈ constraints) (interpretation : Interpretation) :
    ¬interpretation.Meets taint constraints := by
  intro hmeets
  cases (contradictoryTaint_unmet interpretation).symm.trans (hmeets.holds _ h)

-- Another procedure finds that the second constraint is enough.
theorem overlappingTaint_solveThenExplain_minimal_iff :
    (∀ c ∈ overlappingTaint, Constraint.Built taint c) ∧
      (∀ interpretation : Interpretation, ¬interpretation.Meets taint overlappingTaint) ∧
      ∀ host, ∃ sat : Sat.Procedure, sat.Sound ∧ sat.Fair ∧ ∃ explanation,
        (new .standard taint overlappingTaint).solveThenExplain sat host = .ok explanation ∧
        explanation.constraints = [contradictoryTaint] := by
  have hunmet : ∀ interpretation : Interpretation,
      ¬interpretation.Meets taint overlappingTaint :=
    unmet_of_mem_contradictoryTaint (by simp [overlappingTaint])
  have hchosen : Constraint.MinimalConflict taint (Explanation.select overlappingTaint [1]) := by
    refine ⟨unmet_of_mem_contradictoryTaint List.mem_cons_self, fun i hi => ?_⟩
    obtain rfl : i = 0 := by
      have hlength : (Explanation.select overlappingTaint [1]).length = 1 := rfl
      omega
    exact ⟨Cnf.tainted, by decide, fun c hc => by cases hc⟩
  refine ⟨overlappingTaint_built, hunmet, fun host => ?_⟩
  obtain ⟨-, -, -, -, hattained⟩ := @solveThenExplain_minimal_iff
    (new .standard taint overlappingTaint) rfl rfl taint_reachable overlappingTaint_built
    (by decide) (by decide) hunmet host
  exact hattained [1] hchosen

-- The second constraint is a contradiction by itself, but the core names clauses and not
-- constraints, and both have one in it.
theorem overlappingTaint_explains_more :
    (∀ c ∈ overlappingTaint, Constraint.Built taint c) ∧
      ∀ host, ∃ explanation,
        (new .standard taint overlappingTaint).solveThenExplain Sat.bySearch host =
          .ok explanation ∧
        explanation.constraints = overlappingTaint ∧
        ¬Constraint.MinimalConflict taint explanation.constraints := by
  refine ⟨overlappingTaint_built, fun host => ?_⟩
  have hwf := taint_reachable.wellFormed
  have hencodable : ∀ c ∈ overlappingTaint, c.Encodable taint := by decide
  have hfits : (Cnf.numberingOf taint overlappingTaint).Fits taint :=
    Cnf.numberingOf_fits (by decide)
  have hcnf := Cnf.encoding_represents hwf hencodable hfits
  have hunmet : ∀ interpretation : Interpretation,
      ¬interpretation.Meets taint overlappingTaint :=
    unmet_of_mem_contradictoryTaint (by simp [overlappingTaint])
  have hnone := hcnf.solve_of_not_meets hfits hwf overlappingTaint_built Sat.bySearch_sound
    Sat.bySearch_fair hunmet
  obtain ⟨positions, hexplain, -⟩ :=
    hcnf.explain_eq Sat.bySearch_sound (hcnf.unsatisfiable hunmet)
  have hshape : (((Cnf.encoding taint overlappingTaint).explain Sat.bySearch
      overlappingTaint).toOption.map (·.constraints.length)) = some 2 := by
    decide +kernel
  rw [hexplain] at hshape
  have hall : (Cnf.explanationAt taint overlappingTaint positions).constraints = overlappingTaint :=
    Cnf.explanation_sublist.eq_of_length (Option.some.inj hshape)
  have hsame : (new .standard taint overlappingTaint).solveThenExplain Sat.bySearch host =
      (Cnf.encoding taint overlappingTaint).explain Sat.bySearch overlappingTaint :=
    @solveThenExplain_eq (new .standard taint overlappingTaint) rfl rfl
      (Cnf.encoding taint overlappingTaint)
      (Cnf.encode_of_hasRoom hwf hencodable hfits (by decide)) Sat.bySearch hnone host
  refine ⟨_, hsame.trans hexplain, hall, fun hminimal => ?_⟩
  rw [hall] at hminimal
  obtain ⟨interpretation, hmeets⟩ := hminimal.needed 0 Nat.zero_lt_two
  exact unmet_of_mem_contradictoryTaint List.mem_cons_self interpretation hmeets

end Sample

end Qualify.Solver
