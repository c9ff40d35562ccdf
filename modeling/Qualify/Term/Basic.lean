import Qualify.Lattice.Basic
import Qualify.Slot.Id

namespace Qualify

-- Boolean terms over one integer symbol per slot, which holds the position of its qualifier, and
-- one boolean symbol per potential slot.
inductive Term where
  | const (value : Bool)
  | and (terms : List Term)
  | or (terms : List Term)
  | not (term : Term)
  | implies (antecedent consequent : Term)
  | exists (potential : SlotId)
  | is (id : SlotId) (q : Qualifier)
  | same (first second : SlotId)
  | range (id : SlotId) (bound : Nat)
deriving Repr

namespace Term

def slotSymbol (id : SlotId) : String :=
  "slot" ++ id.text

def existsSymbol (id : SlotId) : String :=
  "exists" ++ id.text

mutual

-- The term as solvers read it.
def text : Term → String
  | const value => if value then "true" else "false"
  | and terms => "(and " ++ " ".intercalate (textOfAll terms) ++ ")"
  | or terms => "(or " ++ " ".intercalate (textOfAll terms) ++ ")"
  | not term => "(not " ++ text term ++ ")"
  | implies antecedent consequent => "(=> " ++ text antecedent ++ " " ++ text consequent ++ ")"
  | .exists potential => existsSymbol potential
  | is id q => "(= " ++ slotSymbol id ++ " " ++ toString q ++ ")"
  | same first second => "(= " ++ slotSymbol first ++ " " ++ slotSymbol second ++ ")"
  | range id bound =>
      "(and (>= " ++ slotSymbol id ++ " 0) (< " ++ slotSymbol id ++ " " ++ toString bound ++ "))"

def textOfAll : List Term → List String
  | [] => []
  | term :: rest => text term :: textOfAll rest

end

mutual

def beq : Term → Term → Bool
  | const a, const b => a == b
  | and a, and b => beqAll a b
  | or a, or b => beqAll a b
  | not a, not b => beq a b
  | implies a b, implies c d => beq a c && beq b d
  | .exists a, .exists b => a == b
  | is a p, is b q => a == b && p == q
  | same a b, same c d => a == c && b == d
  | range a m, range b n => a == b && m == n
  | _, _ => false

def beqAll : List Term → List Term → Bool
  | [], [] => true
  | a :: rest, b :: rest' => beq a b && beqAll rest rest'
  | _, _ => false

end

instance : BEq Term where
  beq := beq

mutual

-- The value of a term for positions of the slots and presence of the potential slots.
def eval (position : SlotId → Int) (present : SlotId → Bool) : Term → Bool
  | const value => value
  | and terms => evalAll position present terms
  | or terms => evalAny position present terms
  | not term => !eval position present term
  | implies antecedent consequent =>
      !eval position present antecedent || eval position present consequent
  | .exists potential => present potential
  | is id q => position id == q
  | same first second => position first == position second
  | range id bound => 0 ≤ position id && position id < bound

def evalAll (position : SlotId → Int) (present : SlotId → Bool) : List Term → Bool
  | [] => true
  | term :: rest => eval position present term && evalAll position present rest

def evalAny (position : SlotId → Int) (present : SlotId → Bool) : List Term → Bool
  | [] => false
  | term :: rest => eval position present term || evalAny position present rest

end

end Term

end Qualify
