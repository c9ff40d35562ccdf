import Qualify.Sat.Basic

namespace Qualify.Sat

-- Positions of clauses that cannot all hold, though they can without any one of them.
inductive Subset where
  | minimal (positions : List Nat)
  | satisfiable
  | unknown
deriving DecidableEq, Repr

-- Clauses over the variables from one to `count` that can be switched on one by one.
structure Selection where
  count : Nat
  clauses : List Clause
deriving Repr

namespace Selection

def isWithin (selection : Selection) : Bool :=
  selection.clauses.all (·.all (Literal.isWithin selection.count))

-- The variable that switches on the clause at a position.
def selector (selection : Selection) (position : Nat) : Literal :=
  ((selection.count + 1 + position : Nat) : Int)

def guarded (selection : Selection) : List Clause :=
  selection.clauses.zipIdx.map fun (clause, i) => clause ++ [-selection.selector i]

def check (selection : Selection) (sat : Procedure) (positions : List Nat) : Verdict :=
  sat selection.guarded (positions.map selection.selector)

def keep (selection : Selection) (failed : List Literal) (positions : List Nat) : List Nat :=
  positions.filter fun i => failed.contains (selection.selector i)

-- Leaves out one clause after the other, from the place `i` of the candidates on. A clause without
-- which the rest can hold is needed, and else the search goes on with the clauses that failed.
def minimize (selection : Selection) (sat : Procedure) (candidates : List Nat) (i : Nat) : Subset :=
  if i < candidates.length then
    match selection.check sat (candidates.eraseIdx i) with
    | .sat _ => selection.minimize sat candidates (i + 1)
    | .unsat failed => selection.minimize sat (selection.keep failed (candidates.eraseIdx i)) i
    | .unknown => .unknown
  else .minimal candidates
termination_by candidates.length - i
decreasing_by
  · omega
  · have hkept : (selection.keep failed (candidates.eraseIdx i)).length ≤ candidates.length - 1 :=
      Nat.le_trans (List.length_filter_le ..)
        (Nat.le_of_eq (List.length_eraseIdx_of_lt ‹i < candidates.length›))
    omega

def minimalSubset (selection : Selection) (sat : Procedure) : Subset :=
  let all := List.range selection.clauses.length
  match selection.check sat all with
  | .sat _ => .satisfiable
  | .unsat failed => selection.minimize sat (selection.keep failed all) 0
  | .unknown => .unknown

end Selection

end Qualify.Sat
