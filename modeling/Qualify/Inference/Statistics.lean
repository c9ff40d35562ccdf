import Qualify.Constraint.Basic
import Qualify.Slot.Registry
import Qualify.Text.Tally

namespace Qualify

-- Sizes of the input and of its encoding.
structure Statistics where
  slots : List (String × Nat)
  constraints : List (String × Nat)
  booleans : Nat
  wellFormedness : Nat
  hard : Nat
  soft : Nat
deriving DecidableEq, Repr

namespace Statistics

def empty : Statistics :=
  ⟨[], [], 0, 0, 0, 0⟩

def record (statistics : Statistics) (registry : Registry) (constraints : List Constraint) : Statistics :=
  { statistics with
    slots := Text.tally (registry.slots.toList.map fun slot => slot.kind.label.name)
    constraints := Text.tally (constraints.map (·.kindName)) }

def total (counts : List (String × Nat)) : Nat :=
  counts.foldr (fun entry sum => entry.2 + sum) 0

def underscored (name : String) : String :=
  String.ofList (name.toList.map fun c => if c = ' ' then '_' else c)

-- Nothing is timed here, which is written as an underscore.
def text (statistics : Statistics) : String :=
  "\n".intercalate <|
    [s!"slots: {total statistics.slots}"] ++
      statistics.slots.map (fun (name, n) => s!"slots.{underscored name}: {n}") ++
      [s!"constraints: {total statistics.constraints}"] ++
      statistics.constraints.map (fun (name, n) => s!"constraints.{name}: {n}") ++
      [s!"bool_vars: {statistics.booleans}",
        s!"clauses.well_formedness: {statistics.wellFormedness}",
        s!"clauses.hard: {statistics.hard}",
        s!"clauses.soft: {statistics.soft}",
        "time.serialization_ms: _",
        "time.solving_ms: _",
        "time.explanation_serialization_ms: _",
        "time.explanation_ms: _"]

end Statistics

end Qualify
