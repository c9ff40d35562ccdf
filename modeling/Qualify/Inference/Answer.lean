import Qualify.Cnf.Basic
import Qualify.Inference.Error
import Qualify.Inference.Host
import Qualify.Inference.Settings
import Qualify.Script.Basic
import Qualify.Text.Utf8

namespace Qualify

namespace Cnf

-- A solution of least cost, or none if the hard clauses cannot hold.
def solve (cnf : Cnf) (sat : Sat.Procedure) : Except SolverError (Option Solution) :=
  if cnf.problem.isWithin then
    match cnf.problem.maximize sat with
    | .optimal valuation _ => ((cnf.decode valuation).mapError .ofInconsistency).map some
    | .unsatisfiable => .ok none
    | .unknown => .error .timeout
  else .error (.fault .outOfRange)

-- The constraints of a minimal set of clauses that cannot all hold.
def explain (cnf : Cnf) (sat : Sat.Procedure) (constraints : List Constraint) :
    Except SolverError Explanation :=
  if cnf.selection.isWithin then
    match cnf.selection.minimalSubset sat with
    | .minimal positions => .ok (cnf.explanation constraints positions)
    | .satisfiable => .error .satisfiable
    | .unknown => .error .timeout
  else .error (.fault .outOfRange)

end Cnf

namespace Script

def symbolOpening : List Char :=
  "slot".toList

-- The slot that a symbol of a model stands for.
def slotOfSymbol? (name : String) : Option SlotId :=
  if symbolOpening.isPrefixOf name.toList then do
    let number ← Text.readNat32 (name.toList.drop symbolOpening.length)
    SlotId.ofNumber? number
  else none

-- Values of other symbols are skipped. A later value of a slot replaces an earlier one.
def decodeFrom (size : Nat) (solution : Solution) :
    List (String × Int64) → Except SolverError Solution
  | [] => .ok solution
  | (name, value) :: rest =>
      match slotOfSymbol? name with
      | none => decodeFrom size solution rest
      | some id =>
          if 0 ≤ value.toInt && value.toInt < size then
            decodeFrom size (solution.insert id value.toInt.toNat) rest
          else .error (.malformedOutput (.notQualifier name value))

-- Every variable of the script needs a value.
def decode (script : Script) (lattice : Lattice) (values : List (String × Int64)) :
    Except SolverError Solution := do
  let solution ← decodeFrom lattice.size .empty values
  match script.slots.find? fun id => !solution.contains id with
  | some id => .error (.internal (.undecodedSlot id))
  | none => return solution

-- What the names of a conflict stand for.
def origins (script : Script) : List String → Except SolverError (List Origin)
  | [] => .ok []
  | name :: rest =>
      match script.names.lookup name with
      | none => .error (.malformedOutput (.unknownAssertion name))
      | some origin => do
          let others ← script.origins rest
          return origin :: others

def explanation (script : Script) (constraints : List Constraint) (names : List String) :
    Except SolverError Explanation := do
  let origins ← script.origins names
  return {
    constraints := Explanation.select constraints (origins.filterMap (·.position?))
    wellFormedness := origins.any (·.position?.isNone) }

-- A failed run is reported as such only when its output makes no sense.
def interpret (command : String) (output : RunOutput) : Except SolverError Reply :=
  match Reply.parse (Text.Utf8.decode output.stdout) with
  | .ok reply => .ok reply
  | .error (.fault cause) => .error (.fault cause)
  | .error .timeout => .error .timeout
  | .error (.malformed cause) =>
      if output.status = 0 then .error (.malformedOutput cause)
      else
        let stderr := Text.trim (Text.Utf8.decode output.stderr).toList
        .error (.failed command output.status (String.ofList stderr))

-- Writes the script, adds it to the log and runs the solver on it.
def run (script : Script) (settings : Settings) (host : Host) : Except SolverError Reply × Host :=
  match settings.scriptPath.filter fun path => !host.canWrite path with
  | some path => (.error (.unwritable path), host)
  | none =>
      let written := host.writeTo settings.scriptPath script.text
      let logged := written.appendTo settings.scriptLogPath (script.text ++ "\n")
      match Duration.argument? settings.timeoutFlag settings.timeout with
      | .error cause => (.error (.fault cause), logged)
      | .ok argument =>
          match logged.start settings.command ⟨argument.toList, script.text⟩ with
          | (none, after) => (.error (.notStarted settings.command), after)
          | (some output, after) => (interpret settings.command output, after)

def solve (script : Script) (lattice : Lattice) (settings : Settings) (host : Host) :
    Except SolverError (Option Solution) × Host :=
  match script.run settings host with
  | (.ok (.sat values), after) => ((script.decode lattice values).map some, after)
  | (.ok (.unsat _), after) => (.ok none, after)
  | (.error e, after) => (.error e, after)

def explain (script : Script) (constraints : List Constraint) (settings : Settings) (host : Host) :
    Except SolverError Explanation × Host :=
  match script.run settings host with
  | (.ok (.sat _), after) => (.error .satisfiable, after)
  | (.ok (.unsat names), after) => (script.explanation constraints names, after)
  | (.error e, after) => (.error e, after)

end Script

end Qualify
