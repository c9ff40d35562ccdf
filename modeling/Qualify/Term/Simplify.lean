import Qualify.Term.Basic

namespace Qualify.Term

-- What a member of a conjunction adds to it. A nested conjunction adds its members.
def conjuncts : Term → List Term
  | const true => []
  | and terms => terms
  | term => [term]

def disjuncts : Term → List Term
  | const false => []
  | or terms => terms
  | term => [term]

def isConst (value : Bool) : Term → Bool
  | const b => b == value
  | _ => false

def conjunction (terms : List Term) : Term :=
  if terms.any (isConst false) then const false
  else match terms.flatMap conjuncts with
    | [] => const true
    | [term] => term
    | flat => and flat

def disjunction (terms : List Term) : Term :=
  if terms.any (isConst true) then const true
  else match terms.flatMap disjuncts with
    | [] => const false
    | [term] => term
    | flat => or flat

def negate : Term → Term
  | const b => const !b
  | not term => term
  | term => not term

def implication : Term → Term → Term
  | const false, _ => const true
  | const true, consequent => consequent
  | _, const true => const true
  | antecedent, const false => negate antecedent
  | antecedent, consequent => implies antecedent consequent

mutual

-- Folds constants and flattens nested conjunctions and disjunctions, from the inside out.
def simplify : Term → Term
  | and terms => conjunction (simplifyAll terms)
  | or terms => disjunction (simplifyAll terms)
  | not term => negate (simplify term)
  | implies antecedent consequent => implication (simplify antecedent) (simplify consequent)
  | same first second => if first = second then const true else same first second
  | term => term

def simplifyAll : List Term → List Term
  | [] => []
  | term :: rest => simplify term :: simplifyAll rest

end

end Qualify.Term
