import Qualify.Clause.OfConstraint
import Qualify.Sat.Core
import Qualify.Sat.Optimum
import Qualify.Solution.Basic

namespace Qualify

-- The clauses of some constraints over the slots of a registry. A hard clause knows the position
-- of its constraint, and one without a position says that a slot takes exactly one qualifier.
-- There are `count` variables and `size` qualifiers, and `slots` are the ones to be solved for.
structure Cnf where
  count : Nat
  size : Nat
  hard : List (Clause × Option Nat)
  soft : List (Clause × Nat)
  slots : List SlotId
deriving Repr

-- Conflicting constraints, in their given order, and whether the conflict also needs that slots
-- take exactly one qualifier.
structure Explanation where
  constraints : List Constraint
  wellFormedness : Bool
deriving Repr

-- The constraints at some positions.
def Explanation.select (constraints : List Constraint) (positions : List Nat) : List Constraint :=
  (constraints.zipIdx.filter fun (_, i) => positions.contains i).map (·.1)

namespace Cnf

-- The clauses of constraints from one position on: the hard ones, the soft ones and the variables
-- in use afterwards.
def encodeFrom (registry : Registry) (numbering : Numbering) (position : Nat) :
    List Constraint → Except Inconsistency (List (Clause × Option Nat) × List (Clause × Nat) × Numbering)
  | [] => .ok ([], [], numbering)
  | .preference subject _ q weight _ :: rest => do
      let (hard, soft, after) ← encodeFrom registry numbering (position + 1) rest
      return (hard, ([numbering.literal subject q], weight) :: soft, after)
  | c :: rest => do
      let (result, next) := c.clauses registry numbering
      let clauses ← result
      let (hard, soft, after) ← encodeFrom registry next (position + 1) rest
      return (clauses.map (·, some position) ++ hard, soft, after)

def encode (registry : Registry) (constraints : List Constraint) : Except Inconsistency Cnf := do
  let (hard, soft, numbering) ← encodeFrom registry (Numbering.ofRegistry registry) 0 constraints
  let oneHot := registry.variableSlots.flatMap fun id => numbering.wellFormedness registry.lattice id
  let wellFormed ← (Clause.checked oneHot).mapError .fault
  return {
    count := numbering.count
    size := registry.lattice.size
    hard := hard ++ wellFormed.map (·, none)
    soft
    slots := registry.variableSlots }

def constraintClauses (cnf : Cnf) : Nat :=
  (cnf.hard.filter fun (_, origin) => origin.isSome).length

def wellFormednessClauses (cnf : Cnf) : Nat :=
  cnf.hard.length - cnf.constraintClauses

-- The literals of a clause, with the zero that ends it.
def clauseLine (clause : Clause) : String :=
  " ".intercalate ((clause ++ [0]).map toString)

-- The hard clauses in DIMACS format. The soft ones are comments.
def dimacs (cnf : Cnf) : String :=
  let head := s!"c {cnf.wellFormednessClauses} well-formedness clauses, {cnf.constraintClauses} constraint clauses, {cnf.soft.length} soft clauses"
  let soft := cnf.soft.map fun (clause, weight) => s!"c soft {weight} {clauseLine clause}"
  let hard := cnf.hard.map fun (clause, _) => clauseLine clause
  let lines := head :: (soft ++ s!"p cnf {cnf.count} {cnf.hard.length}" :: hard)
  String.join (lines.map (· ++ "\n"))

-- The qualifiers whose variables hold, for one slot.
def held (cnf : Cnf) (valuation : Valuation) (id : SlotId) : List Qualifier :=
  (List.range cnf.size).filter fun q => valuation (id.index * cnf.size + q + 1)

-- Every slot has to have exactly one variable that holds. There are values of the variables up to
-- the last one only.
def decodeFrom (cnf : Cnf) (valuation : Valuation) (solution : Solution) :
    List SlotId → Except Inconsistency Solution
  | [] => .ok solution
  | id :: rest =>
      if cnf.count < id.index * cnf.size + cnf.size then .error (.fault .outOfRange)
      else
        match cnf.held valuation id with
        | [q] => cnf.decodeFrom valuation (solution.insert id q) rest
        | _ => .error (.undecodedSlot id)

def decode (cnf : Cnf) (valuation : Valuation) : Except Inconsistency Solution :=
  cnf.decodeFrom valuation .empty cnf.slots

def problem (cnf : Cnf) : Sat.Problem where
  count := cnf.count
  hard := cnf.hard.map (·.1)
  soft := cnf.soft

def selection (cnf : Cnf) : Sat.Selection where
  count := cnf.count
  clauses := cnf.hard.map (·.1)

-- The constraints that some hard clauses come from.
def explanation (cnf : Cnf) (constraints : List Constraint) (positions : List Nat) : Explanation :=
  let origins := positions.filterMap fun i => (cnf.hard[i]?).map (·.2)
  { constraints := Explanation.select constraints (origins.filterMap id)
    wellFormedness := origins.contains none }

end Cnf

end Qualify
