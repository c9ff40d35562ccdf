import Qualify.Sat.Basic

namespace Qualify.Sat

-- Clauses that have to hold, and clauses with weights that should, over the variables from one to
-- `count`.
structure Problem where
  count : Nat
  hard : List Clause
  soft : List (Clause × Nat)
deriving Repr

-- Whether every literal that counts belongs to a variable. Soft clauses without weight do not count.
def Problem.isWithin (problem : Problem) : Bool :=
  problem.hard.all (·.all (Literal.isWithin problem.count)) &&
    problem.soft.all fun (clause, weight) =>
      weight == 0 || clause.all (Literal.isWithin problem.count)

inductive Optimum where
  | optimal (valuation : Valuation) (cost : Nat)
  | unsatisfiable
  | unknown

-- A soft clause with the weight it still has. It holds or its blocker does.
structure Soft where
  literals : Clause
  weight : Nat
  blocker : Nat
deriving Repr

def Soft.guarded (soft : Soft) : Clause :=
  soft.literals ++ [(soft.blocker : Int)]

-- The search for an optimum: `cost` is paid for certain by now, and the variables from `next` on
-- are free. `hard` also holds what earlier steps have added.
structure Relaxation where
  hard : List Clause
  softs : List Soft
  next : Nat
  cost : Nat
deriving Repr

namespace Relaxation

-- Gives each soft clause a blocker of its own.
def start (problem : Problem) : Relaxation :=
  let weighted := problem.soft.filter fun (_, weight) => 0 < weight
  { hard := problem.hard
    softs := weighted.zipIdx.map fun ((clause, weight), i) => ⟨clause, weight, problem.count + 1 + i⟩
    next := problem.count + 1 + weighted.length
    cost := 0 }

def clauses (r : Relaxation) : List Clause :=
  r.hard ++ r.softs.map (·.guarded)

def assumptions (r : Relaxation) : List Literal :=
  r.softs.map fun soft => -(soft.blocker : Int)

def isFailed (failed : List Literal) (soft : Soft) : Bool :=
  failed.contains (-(soft.blocker : Int))

-- The least weight in a core.
def leastWeight : List Soft → Nat
  | [] => 0
  | [soft] => soft.weight
  | soft :: rest => min soft.weight (leastWeight rest)

-- The soft clauses that take part in a conflict, numbered.
def core (r : Relaxation) (failed : List Literal) : List (Soft × Nat) :=
  (r.softs.filter (isFailed failed)).zipIdx

-- The variable that relaxes the clause at a place of a core. The two after it are the blockers of
-- the relaxed clause and of what is left of the old one.
def relaxer (r : Relaxation) (i : Nat) : Nat :=
  r.next + 3 * i

def relaxed (r : Relaxation) (weight : Nat) (entry : Soft × Nat) : Soft where
  literals := entry.1.literals ++ [(r.relaxer entry.2 : Int)]
  weight := weight
  blocker := r.relaxer entry.2 + 1

def remainder (r : Relaxation) (weight : Nat) (entry : Soft × Nat) : Soft where
  literals := entry.1.literals
  weight := entry.1.weight - weight
  blocker := r.relaxer entry.2 + 2

-- At least one clause of a core is violated, so its least weight is paid. Of that weight each
-- clause is relaxed by a variable of its own, of which exactly one holds; what a clause weighs
-- beyond that stays as it was. The guarded clauses of the core are not taken back, but nothing
-- is assumed of their blockers any more.
def relax (r : Relaxation) (failed : List Literal) : Relaxation :=
  let core := r.core failed
  let weight := leastWeight (core.map (·.1))
  { hard := r.hard ++ core.map (·.1.guarded) ++
      Clause.exactlyOne (core.map fun entry => (r.relaxer entry.2 : Int))
    softs := r.softs.filter (fun soft => !isFailed failed soft) ++ core.map (r.relaxed weight) ++
      (core.filter fun entry => weight < entry.1.weight).map (r.remainder weight)
    next := r.next + 3 * core.length
    cost := r.cost + weight }

-- A core without soft clauses means that the hard clauses cannot hold.
def step (sat : Procedure) (r : Relaxation) : Except Optimum Relaxation :=
  match sat r.clauses r.assumptions with
  | .sat valuation => .error (.optimal valuation r.cost)
  | .unsat failed =>
      if r.softs.any (isFailed failed) then .ok (r.relax failed) else .error .unsatisfiable
  | .unknown => .error .unknown

def run (sat : Procedure) : Nat → Relaxation → Optimum
  | 0, _ => .unknown
  | fuel + 1, r =>
      match r.step sat with
      | .error optimum => optimum
      | .ok after => run sat fuel after

end Relaxation

def Problem.totalWeight (problem : Problem) : Nat :=
  problem.soft.foldr (fun entry sum => entry.2 + sum) 0

-- The least total weight of violated soft clauses among the values that satisfy the hard ones.
-- Every step pays at least one unit of the total weight, so the number of steps is bounded.
def Problem.maximize (sat : Procedure) (problem : Problem) : Optimum :=
  Relaxation.run sat (problem.totalWeight + 1) (Relaxation.start problem)

end Qualify.Sat
