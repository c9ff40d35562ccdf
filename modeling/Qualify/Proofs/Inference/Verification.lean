import Qualify.Inference.Solver
import Qualify.Proofs.Cnf.Solving
import Qualify.Proofs.Solution.Verification

namespace Qualify.Solver

structure SameTask (solver other : Solver) : Prop where
  settings_eq : solver.settings = other.settings
  registry_eq : solver.registry = other.registry
  constraints_eq : solver.constraints = other.constraints

theorem SameTask.verify_eq {solver other : Solver} (h : solver.SameTask other)
    (solution : Solution) : solver.verify solution = other.verify solution := by
  rw [verify, verify, h.settings_eq, h.registry_eq, h.constraints_eq]

theorem settle_sameTask {α : Type} (solver : Solver) (answer : Except SolverError α) :
    (solver.settle answer).SameTask solver := by
  unfold settle
  split <;> exact ⟨rfl, rfl, rfl⟩

theorem serialize_eq (solver : Solver) (hbackend : solver.settings.backend = .maxSat) {cnf : Cnf}
    (hencode : Cnf.encode solver.registry solver.constraints = .ok cnf) (mode : ScriptMode)
    (host : Host) :
    ∃ after host', solver.serialize mode host = (.ok (.cnf cnf), after, host') ∧
      after.SameTask solver := by
  unfold serialize
  simp only [hbackend, hencode]
  exact ⟨_, _, rfl, rfl, rfl, rfl⟩

theorem ask_eq (solver : Solver) (htimeout : solver.settings.timeout = none) (cnf : Cnf)
    (sat : Sat.Procedure) (host : Host) :
    solver.ask sat (.cnf cnf) host = (cnf.solve sat, host.now.2) := by
  simp only [ask, timed, Settings.limited, htimeout]
  rfl

-- Without a time limit the three stages compose: encode, decide, verify.
theorem solve_eq {solver : Solver} (hbackend : solver.settings.backend = .maxSat)
    (htimeout : solver.settings.timeout = none) {cnf : Cnf}
    (hencode : Cnf.encode solver.registry solver.constraints = .ok cnf) (sat : Sat.Procedure)
    (host : Host) :
    (solver.solve sat host).1 = (do
      match ← cnf.solve sat with
      | none => return none
      | some solution => solver.verify solution) := by
  obtain ⟨after, host', hserialize, hsame⟩ := serialize_eq
    { solver with unsatisfiable := false } hbackend hencode
    (if solver.settings.optimizing then .optimize else .satisfy) host
  have hask := ask_eq (after.enter .solving) (hsame.settings_eq ▸ htimeout) cnf sat host'
  unfold solve
  dsimp only
  rw [hserialize]
  dsimp only
  rw [hask]
  cases cnf.solve sat with
  | error e => rfl
  | ok found =>
      cases found with
      | none => rfl
      | some solution =>
          exact ((settle_sameTask _ _).verify_eq solution).trans (hsame.verify_eq solution)

section Built

variable {registry : Registry} {c : Constraint} {interpretation : Interpretation}

theorem holds_isOk_of_built (hwf : registry.WellFormed) (hbuilt : Constraint.Built registry c)
    (hrange : interpretation.InRange registry) :
    ∃ verdict, (interpretation.solution registry).holds registry c = .ok verdict := by
  cases hsoft : c.isSoft with
  | true =>
      obtain ⟨subject, goal, q, weight, location, rfl, -⟩ := hbuilt.soft_cases hwf hsoft
      exact ⟨true, rfl⟩
  | false => exact Interpretation.holds_isOk hwf hrange c (hbuilt.succeeds hsoft)

theorem holds_of_eval (hwf : registry.WellFormed) (hbuilt : Constraint.Built registry c)
    (hrange : interpretation.InRange registry) (hpositive : c.existentialsPositive true = true)
    (heval : interpretation.eval registry c = true) :
    (interpretation.solution registry).holds registry c = .ok true := by
  cases hsoft : c.isSoft with
  | true =>
      obtain ⟨subject, goal, q, weight, location, rfl, -⟩ := hbuilt.soft_cases hwf hsoft
      rfl
  | false =>
      exact Interpretation.checkedAt hwf hrange c (hbuilt.succeeds hsoft) true hpositive heval

end Built

-- Every built constraint has a verdict under a total solution, so that verification stops at the
-- first `false` or nowhere.
theorem verify_cases {solver : Solver} (hverifying : solver.settings.verifying = true)
    (hwf : solver.registry.WellFormed)
    (hbuilt : ∀ c ∈ solver.constraints, Constraint.Built solver.registry c)
    {interpretation : Interpretation} (hrange : interpretation.InRange solver.registry) :
    (solver.verify (interpretation.solution solver.registry) =
        .ok (some (interpretation.solution solver.registry)) ∧
      ∀ c ∈ solver.constraints,
        (interpretation.solution solver.registry).holds solver.registry c = .ok true) ∨
      ∃ c ∈ solver.constraints,
        solver.verify (interpretation.solution solver.registry) =
          .error (.internal (.solutionViolation c)) ∧
        (interpretation.solution solver.registry).holds solver.registry c = .ok false := by
  have hok := fun c hc => holds_isOk_of_built hwf (hbuilt c hc) hrange
  rw [verify, if_pos hverifying]
  rcases Solution.firstViolation_cases hok with ⟨hnone, hall⟩ | ⟨c, hc, hsome, hfalse⟩
  · exact .inl ⟨by rw [hnone], hall⟩
  · exact .inr ⟨c, hc, by rw [hsome], hfalse⟩

-- What solving comes to when the numbers fit: there is nothing to be found, or a best solution is
-- found and checked.
theorem solve_cases {solver : Solver} (hbackend : solver.settings.backend = .maxSat)
    (htimeout : solver.settings.timeout = none) (hreachable : solver.registry.Reachable)
    (hbuilt : ∀ c ∈ solver.constraints, Constraint.Built solver.registry c)
    (hcount : solver.registry.slots.size * solver.registry.lattice.size +
      (Constraint.potentialsOfAll solver.constraints).dedup.length < 0x80000000)
    (hroom : Cnf.HasRoom solver.registry solver.constraints) (host : Host) :
    (∀ sat : Sat.Procedure, sat.Sound → sat.Fair →
        ((∀ interpretation : Interpretation,
            ¬interpretation.Meets solver.registry solver.constraints) ∧
          (solver.solve sat host).1 = .ok none) ∨
        ∃ best : Interpretation, best.Best solver.registry solver.constraints ∧
          (solver.solve sat host).1 = solver.verify (best.solution solver.registry)) ∧
      ∀ best : Interpretation, best.Best solver.registry solver.constraints →
        ∃ sat : Sat.Procedure, sat.Sound ∧ sat.Fair ∧
          (solver.solve sat host).1 = solver.verify (best.solution solver.registry) := by
  have hwf := hreachable.wellFormed
  obtain ⟨cnf, numbering, hencode, hfits, hcnf⟩ := Cnf.encode_represents hwf hbuilt hcount hroom
  refine ⟨fun sat hsound hfair => ?_, fun best hbest => ?_⟩
  · rw [solve_eq hbackend htimeout hencode]
    by_cases hsome : ∃ interpretation : Interpretation,
        interpretation.Meets solver.registry solver.constraints
    · obtain ⟨interpretation, hmeets⟩ := hsome
      obtain ⟨best, hbest, hsolve⟩ := hcnf.solve_of_meets hfits hwf hbuilt hsound hmeets
      exact .inr ⟨best, hbest, by rw [hsolve]; rfl⟩
    · have hunmet := not_exists.mp hsome
      have hnone := hcnf.solve_of_not_meets hfits hwf hbuilt hsound hfair hunmet
      exact .inl ⟨hunmet, by rw [hnone]; rfl⟩
  · obtain ⟨sat, hsound, hfair, hsolve⟩ := hcnf.solve_of_best hfits hwf hbuilt hbest
    exact ⟨sat, hsound, hfair, by rw [solve_eq hbackend htimeout hencode, hsolve]; rfl⟩

-- A solution is rejected by the check exactly when it is one of the best and violates a constraint
-- as the check reads it, where one branch of an existential constraint is enough. This cannot
-- happen as long as existential constraints stand in positive positions.
theorem solve_violates_iff {solver : Solver} (hbackend : solver.settings.backend = .maxSat)
    (htimeout : solver.settings.timeout = none) (hverifying : solver.settings.verifying = true)
    (hreachable : solver.registry.Reachable)
    (hbuilt : ∀ c ∈ solver.constraints, Constraint.Built solver.registry c)
    (hcount : solver.registry.slots.size * solver.registry.lattice.size +
      (Constraint.potentialsOfAll solver.constraints).dedup.length < 0x80000000)
    (hroom : Cnf.HasRoom solver.registry solver.constraints) (host : Host) :
    ((∃ sat : Sat.Procedure, sat.Sound ∧ sat.Fair ∧
          ∃ c, (solver.solve sat host).1 = .error (.internal (.solutionViolation c))) ↔
        ∃ best : Interpretation, best.Best solver.registry solver.constraints ∧
          ∃ c ∈ solver.constraints,
            (best.solution solver.registry).holds solver.registry c = .ok false) ∧
      ((∀ c ∈ solver.constraints, c.existentialsPositive true = true) →
        ∀ sat : Sat.Procedure, sat.Sound → sat.Fair →
          ∃ answer, (solver.solve sat host).1 = .ok answer ∧
            ∀ solution, answer = some solution →
              ∀ c ∈ solver.constraints, solution.holds solver.registry c = .ok true) := by
  have hwf := hreachable.wellFormed
  obtain ⟨hfound, hattained⟩ := solve_cases hbackend htimeout hreachable hbuilt hcount hroom host
  refine ⟨⟨?_, ?_⟩, fun hpositive sat hsound hfair => ?_⟩
  · rintro ⟨sat, hsound, hfair, c, hviolation⟩
    rcases hfound sat hsound hfair with ⟨-, hnone⟩ | ⟨best, hbest, hsolve⟩
    · cases hnone.symm.trans hviolation
    · rcases verify_cases hverifying hwf hbuilt hbest.meets.inRange with ⟨hok, -⟩ | hviolated
      · cases (hok.symm.trans hsolve.symm).trans hviolation
      · obtain ⟨violated, hmem, -, hfalse⟩ := hviolated
        exact ⟨best, hbest, violated, hmem, hfalse⟩
  · -- The first constraint violated need not be `c`, but there is one.
    rintro ⟨best, hbest, c, hc, hfalse⟩
    obtain ⟨sat, hsound, hfair, hsolve⟩ := hattained best hbest
    rcases verify_cases hverifying hwf hbuilt hbest.meets.inRange with ⟨-, hall⟩ | hviolated
    · cases (hall c hc).symm.trans hfalse
    · obtain ⟨violated, -, hverify, -⟩ := hviolated
      exact ⟨sat, hsound, hfair, violated, hsolve.trans hverify⟩
  · rcases hfound sat hsound hfair with ⟨-, hnone⟩ | ⟨best, hbest, hsolve⟩
    · exact ⟨none, hnone, by simp⟩
    · have hrange := hbest.meets.inRange
      have hall := fun c hc =>
        holds_of_eval hwf (hbuilt c hc) hrange (hpositive c hc) (hbest.meets.holds c hc)
      rcases verify_cases hverifying hwf hbuilt hrange with ⟨hok, -⟩ | ⟨c, hc, -, hfalse⟩
      · refine ⟨_, hsolve.trans hok, fun solution hsolution => ?_⟩
        cases hsolution
        exact hall
      · cases (hall c hc).symm.trans hfalse

section Sample

open Registry

theorem taintFlow_solve_violates_iff :
    (∀ c ∈ Cnf.taintFlow, c.existentialsPositive true = true) ∧
      ∀ host, ∃ answer,
        ((new .standard taint Cnf.taintFlow).solve Sat.bySearch host).1 = .ok answer ∧
        ∀ solution, answer = some solution →
          ∀ c ∈ Cnf.taintFlow, solution.holds taint c = .ok true := by
  have hpositive : ∀ c ∈ Cnf.taintFlow, c.existentialsPositive true = true := by decide
  refine ⟨hpositive, fun host => ?_⟩
  have hviolates := @solve_violates_iff (new .standard taint Cnf.taintFlow) rfl rfl rfl
    taint_reachable Cnf.taintFlow_built (by decide) (by decide) host
  exact hviolates.2 hpositive Sat.bySearch Sat.bySearch_sound Sat.bySearch_fair

-- With the source present, the assumption says that the sink is tainted. The check is content with
-- what it would say otherwise, that the source is tainted.
def taintGuard : Constraint :=
  .implication
    [.existential sourceSlot [.relation .equality sinkSlot taintedSlot .missing]
      [.relation .equality sourceSlot taintedSlot .missing] (.code "io" 1 1 "")]
    (.relation .equality sinkSlot taintedSlot .missing) .missing

def guardedTaint : List Constraint :=
  [.relation .equality sourceSlot taintedSlot .missing,
    .relation .equality sinkSlot untaintedSlot .missing, taintGuard]

theorem guardedTaint_built : ∀ c ∈ guardedTaint, Constraint.Built taint c := by
  have hrelate : ∀ first second c,
      Constraint.relate taint .equality first second .missing = .ok c → Constraint.Built taint c :=
    fun _ _ _ h => .relate .refl h
  have hfirst := hrelate sourceSlot taintedSlot _ rfl
  have hsecond := hrelate sinkSlot untaintedSlot _ rfl
  have hconclusion := hrelate sinkSlot taintedSlot _ rfl
  have hbranch : Constraint.branch taint sourceSlot
      [.relation .equality sinkSlot taintedSlot .missing]
      [.relation .equality sourceSlot taintedSlot .missing] = .ok _ := rfl
  have hassumption := Constraint.Built.branch .refl (List.forall_mem_singleton.mpr hconclusion)
    (List.forall_mem_singleton.mpr hfirst) hbranch
  have hguard : Constraint.Built taint taintGuard :=
    .imply (List.forall_mem_singleton.mpr hassumption) hconclusion rfl
  simp only [guardedTaint, List.forall_mem_cons]
  exact ⟨hfirst, hsecond, hguard, by simp⟩

def presentTaint : Interpretation where
  choice id := if id = sinkSlot then 1 else 0
  present _ := true

theorem guardedTaint_solve_violates :
    (∀ c ∈ guardedTaint, Constraint.Built taint c) ∧
      ∀ sat : Sat.Procedure, sat.Sound → sat.Fair → ∀ host,
        ((new .standard taint guardedTaint).solve sat host).1 =
          .error (.internal (.solutionViolation taintGuard)) := by
  refine ⟨guardedTaint_built, fun sat hsound hfair host => ?_⟩
  obtain ⟨hfound, -⟩ := @solve_cases (new .standard taint guardedTaint) rfl rfl
    taint_reachable guardedTaint_built (by decide) (by decide) host
  rcases hfound sat hsound hfair with ⟨hunmet, -⟩ | ⟨best, hbest, hsolve⟩
  · exact absurd ⟨by decide, by decide⟩ (hunmet presentTaint)
  · have hholds := hbest.meets.holds
    simp only [new, guardedTaint, List.forall_mem_cons] at hholds
    obtain ⟨hfirst, hsecond, -⟩ := hholds
    have htainted : best.choice sourceSlot = 0 := eq_of_beq hfirst
    have huntainted : best.choice sinkSlot = 1 := eq_of_beq hsecond
    have hsolution : best.solution taint =
        ⟨[(sourceSlot, best.choice sourceSlot), (sinkSlot, best.choice sinkSlot)]⟩ := rfl
    rw [htainted, huntainted] at hsolution
    exact (hsolve.trans (congrArg _ hsolution)).trans rfl

end Sample

end Qualify.Solver
