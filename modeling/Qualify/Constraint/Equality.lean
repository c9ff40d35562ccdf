import Qualify.Constraint.Basic

namespace Qualify.Constraint

mutual

-- Two constraints are the same when they ask the same of the same slots. Locations and weights
-- do not count, nor does the order of the operands of a symmetric relation.
def same : Constraint → Constraint → Bool
  | alwaysTrue, alwaysTrue => true
  | alwaysFalse, alwaysFalse => true
  | relation kind a b _, relation kind' a' b' _ =>
      kind == kind' && ((a == a' && b == b') || (kind.isSymmetric && a == b' && b == a'))
  | function table a b r _, function table' a' b' r' _ =>
      table == table' && a == a' && b == b' && r == r'
  | preference subject goal _ _ _, preference subject' goal' _ _ _ =>
      subject == subject' && goal == goal'
  | existential potential present absent _, existential potential' present' absent' _ =>
      potential == potential' && sameAll present present' && sameAll absent absent'
  | implication assumptions conclusion _, implication assumptions' conclusion' _ =>
      sameAll assumptions assumptions' && same conclusion conclusion'
  | _, _ => false

def sameAll : List Constraint → List Constraint → Bool
  | [], [] => true
  | c :: rest, c' :: rest' => same c c' && sameAll rest rest'
  | _, _ => false

end

instance : BEq Constraint where
  beq := same

-- The constraints of a list without those that are the same as an earlier one.
def distinct (constraints : List Constraint) : List Constraint :=
  constraints.foldl (fun kept c => if kept.any (same c) then kept else kept ++ [c]) []

end Qualify.Constraint
