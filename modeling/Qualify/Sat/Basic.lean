import Qualify.Clause.Basic

namespace Qualify.Sat

-- An answer on clauses under assumptions: values that make all of them hold, or assumptions that
-- cannot all hold together with the clauses. It is unknown when the time is up.
inductive Verdict where
  | sat (valuation : Valuation)
  | unsat (failed : List Literal)
  | unknown

-- A procedure that decides clauses under assumptions, or gives up on them.
abbrev Procedure := List Clause → List Literal → Verdict

-- Gives up on everything.
def Procedure.silent : Procedure :=
  fun _ _ => .unknown

end Qualify.Sat
