import Qualify.Cnf.Basic
import Qualify.Slot.Annot

namespace Qualify

-- How an inference ends.
inductive Outcome where
  | solved (solution : Solution)
  | unsatisfiable (explanation : Explanation)
deriving Repr

namespace Outcome

def constraintLine (c : Constraint) : String :=
  s!"{c.kindName}: {c.text}" ++ if c.location.isMissing then "" else s!" at {c.location.text}"

def lines (lattice : Lattice) : Outcome → List String
  | solved solution =>
      "SlotID\tAnnotation" :: solution.entries.map fun (id, q) =>
        s!"{id.text}\t{(Annot.named (lattice.name q)).text}"
  | unsatisfiable explanation =>
      "Unsatisfiable constraints:" :: explanation.constraints.map constraintLine ++
        if explanation.wellFormedness then ["(hit well-formedness)"] else []

-- A table of slots and their annotations, or the constraints in conflict.
def text (lattice : Lattice) (outcome : Outcome) : String :=
  "\n".intercalate (outcome.lines lattice)

end Outcome

end Qualify
