import Qualify.Inference.Answer
import Qualify.Inference.Outcome
import Qualify.Inference.Statistics
import Qualify.Solution.Verify

namespace Qualify

-- Solves the constraints of one run. `unsatisfiable` says that the last attempt to solve found
-- that there is no solution, so that an explanation can be asked for.
structure Solver where
  settings : Settings
  registry : Registry
  constraints : List Constraint
  state : SolverState
  unsatisfiable : Bool
  statistics : Statistics

-- The input of a backend.
inductive BackendInput where
  | cnf (cnf : Cnf)
  | script (script : Script)

namespace Solver

-- A call answers with a value or an error, and either way with the solver and the world it leaves.
abbrev Answer (α : Type) := Except SolverError α × Solver × Host

def new (settings : Settings) (registry : Registry) (constraints : List Constraint) : Solver where
  settings := settings
  registry := registry
  constraints := constraints
  state := .idle
  unsatisfiable := false
  statistics := .empty

def enter (solver : Solver) (state : SolverState) : Solver :=
  { solver with state := state }

def recordCnf (solver : Solver) (cnf : Cnf) : Solver :=
  { solver with statistics := { solver.statistics with
      booleans := cnf.count
      wellFormedness := cnf.wellFormednessClauses
      hard := cnf.constraintClauses
      soft := cnf.soft.length } }

def recordScript (solver : Solver) (script : Script) : Solver :=
  { solver with statistics := { solver.statistics with
      wellFormedness := script.slots.length
      hard := script.hard - script.slots.length
      soft := script.soft } }

-- A call that has answered is done, also when the answer is an error. A fault has stopped the solver
-- in the middle of its work, and it stays where it was.
def settle {α : Type} (solver : Solver) (answer : Except SolverError α) : Solver :=
  match answer with
  | .error (.fault _) => solver
  | _ => solver.enter .done

-- Makes the input of the chosen backend. When that fails there is nothing left to do.
def serialize (solver : Solver) (mode : ScriptMode) (host : Host) : Answer BackendInput :=
  let begun := { solver.enter .serializing with
    statistics := solver.statistics.record solver.registry solver.constraints }
  match solver.settings.backend with
  | .maxSat =>
      let encoded := (Cnf.encode solver.registry solver.constraints).mapError .ofInconsistency
      match encoded with
      | .error e => (.error e, begun.settle encoded, host)
      | .ok cnf => (.ok (.cnf cnf), begun.recordCnf cnf, host.writeTo solver.settings.cnfPath cnf.dimacs)
  | .smt =>
      let written := (Script.ofConstraints solver.registry solver.constraints mode).mapError .ofInconsistency
      match written with
      | .error e => (.error e, begun.settle written, host)
      | .ok script => (.ok (.script script), begun.recordScript script, host)

-- Runs a part of the work that has to end before a deadline, which may have no room.
def timed {α : Type} (solver : Solver) (host : Host) (work : Except SolverError α) :
    Except SolverError α × Host :=
  let (now, host) := host.now
  match Duration.deadline now solver.settings.timeout with
  | .error cause => (.error (.fault cause), host)
  | .ok _ => (work, host)

-- What the backend says of its input.
def ask (solver : Solver) (sat : Sat.Procedure) (input : BackendInput) (host : Host) :
    Except SolverError (Option Solution) × Host :=
  match input with
  | .cnf cnf => solver.timed host (cnf.solve (solver.settings.limited sat))
  | .script script => script.solve solver.registry.lattice solver.settings host

def askWhy (solver : Solver) (sat : Sat.Procedure) (input : BackendInput) (host : Host) :
    Except SolverError Explanation × Host :=
  match input with
  | .cnf cnf => solver.timed host (cnf.explain (solver.settings.limited sat) solver.constraints)
  | .script script => script.explain solver.constraints solver.settings host

-- Checks a solution against the constraints, if asked to.
def verify (solver : Solver) (solution : Solution) : Except SolverError (Option Solution) :=
  if solver.settings.verifying then
    match solution.firstViolation solver.registry solver.constraints with
    | .error e => .error (.internal e)
    | .ok (some c) => .error (.internal (.solutionViolation c))
    | .ok none => .ok (some solution)
  else .ok (some solution)

-- A qualifier for every variable slot, or none if no choice meets the hard constraints.
def solve (solver : Solver) (sat : Sat.Procedure) (host : Host) : Answer (Option Solution) :=
  let mode := if solver.settings.optimizing then ScriptMode.optimize else ScriptMode.satisfy
  match { solver with unsatisfiable := false }.serialize mode host with
  | (.error e, after, host) => (.error e, after, host)
  | (.ok input, after, host) =>
      let asking := after.enter .solving
      let (answer, host) := asking.ask sat input host
      let finished := asking.settle answer
      match answer with
      | .error e => (.error e, finished, host)
      | .ok none => (.ok none, { finished with unsatisfiable := true }, host)
      | .ok (some solution) => (finished.verify solution, finished, host)

-- Why the last attempt to solve found no solution.
def explain (solver : Solver) (sat : Sat.Procedure) (host : Host) : Answer Explanation :=
  if solver.unsatisfiable && solver.state = .done then
    match solver.serialize .explain host with
    | (.error e, after, host) => (.error e, after, host)
    | (.ok input, after, host) =>
        let asking := after.enter .explaining
        let (answer, host) := asking.askWhy sat input host
        (answer, asking.settle answer, host)
  else (.error (.invalidState solver.state), solver, host)

-- Writes the files that tell how an inference ended.
def report (solver : Solver) (outcome : Outcome) (host : Host) : Host :=
  (host.writeTo solver.settings.statisticsPath solver.statistics.text).writeTo
    solver.settings.resultPath (outcome.text solver.registry.lattice ++ "\n")

-- Solves, and explains if there is no solution.
def infer (solver : Solver) (sat : Sat.Procedure) (host : Host) : Answer Outcome :=
  match solver.solve sat host with
  | (.error e, after, host) => (.error e, after, host)
  | (.ok (some solution), after, host) =>
      (.ok (.solved solution), after, after.report (.solved solution) host)
  | (.ok none, after, host) =>
      match after.explain sat host with
      | (.error e, after, host) => (.error e, after, host)
      | (.ok explanation, after, host) =>
          (.ok (.unsatisfiable explanation), after, after.report (.unsatisfiable explanation) host)

end Solver

end Qualify
