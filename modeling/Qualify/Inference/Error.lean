import Qualify.Constraint.Inconsistency
import Qualify.Script.Reply

namespace Qualify

inductive SolverState where
  | idle
  | serializing
  | solving
  | explaining
  | done
deriving DecidableEq, Repr

def SolverState.text : SolverState → String
  | idle => "idle"
  | serializing => "serializing"
  | solving => "solving"
  | explaining => "explaining"
  | done => "done"

-- A fault ends a call without an answer, and the solver stays in the middle of its work.
inductive SolverError where
  | fault (cause : Fault)
  | internal (error : Inconsistency)
  | unwritable (path : String)
  | invalidState (state : SolverState)
  | malformedOutput (cause : Malformation)
  | failed (command : String) (status : Nat) (stderr : String)
  | satisfiable
  | notStarted (command : String)
  | timeout
deriving Repr

namespace SolverError

def ofInconsistency : Inconsistency → SolverError
  | .fault cause => .fault cause
  | error => .internal error

def message : SolverError → String
  | fault cause => cause.text
  | internal error => error.message
  | unwritable path => s!"unable to write `{path}'"
  | invalidState state =>
      s!"no explanation is available in state {state.text}, the last solve did not fail"
  | malformedOutput cause => s!"unable to parse solver output: {cause.text}"
  | failed command status stderr => s!"solver `{command}' failed (exit status: {status}): {stderr}"
  | satisfiable => "an explanation was requested, but the constraints are satisfiable"
  | notStarted command => s!"unable to start solver `{command}'"
  | timeout => "the solver reached its time limit"

end SolverError

end Qualify
