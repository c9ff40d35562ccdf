import Qualify.Constraint.Basic

namespace Qualify

-- One value of the sequence that identifies a constraint: which of several cases applies, how
-- many members a list has, a slot, or the sum of two slots.
inductive DigestItem where
  | case (index : Nat)
  | length (count : Nat)
  | slot (number : Nat)
  | slotSum (sum : Nat)
deriving DecidableEq, Repr

namespace Relation

def caseIndex : Relation → Nat
  | comparable => 0
  | equality => 1
  | inequality => 2
  | subtype => 3

end Relation

namespace Operation

def caseIndex : Operation → Nat
  | and => 0
  | divide => 1
  | leftShift => 2
  | minus => 3
  | multiply => 4
  | or => 5
  | plus => 6
  | remainder => 7
  | rightShift => 8
  | unsignedRightShift => 9
  | xor => 10

end Operation

namespace Constraint

-- A sum does not tell its summands apart, so a symmetric relation is digested the same way in
-- both orders of its operands.
def digestOperands (kind : Relation) (first second : SlotId) : List DigestItem :=
  if kind.isSymmetric then [.slotSum (first.number + second.number)]
  else [.slot first.number, .slot second.number]

mutual

-- What a constraint is found by in an index: constraints that are the same have one digest.
def digest : Constraint → List DigestItem
  | alwaysFalse => [.case 0]
  | alwaysTrue => [.case 1]
  | function (.arithmetic operation) left right result _ =>
      [.case 2, .case operation.caseIndex, .slot left.number, .slot right.number, .slot result.number]
  | relation kind first second _ => .case 3 :: .case kind.caseIndex :: digestOperands kind first second
  | function .adapt left right result _ =>
      [.case 4, .slot left.number, .slot right.number, .slot result.number]
  | existential potential present absent _ =>
      .case 5 :: .slot potential.number :: .length present.length ::
        (digestOfAll present ++ .length absent.length :: digestOfAll absent)
  | implication assumptions conclusion _ =>
      .case 6 :: .length assumptions.length :: (digestOfAll assumptions ++ digest conclusion)
  | preference subject goal _ _ _ => [.case 7, .slot subject.number, .slot goal.number]

def digestOfAll : List Constraint → List DigestItem
  | [] => []
  | c :: rest => digest c ++ digestOfAll rest

end

end Constraint

end Qualify
