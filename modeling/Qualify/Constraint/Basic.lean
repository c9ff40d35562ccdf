import Qualify.Lattice.Basic
import Qualify.Slot.Id
import Qualify.Slot.Location

namespace Qualify

-- The relations between two qualifiers.
inductive Relation where
  | comparable
  | equality
  | inequality
  | subtype
deriving DecidableEq, Repr

namespace Relation

def isSymmetric : Relation → Bool
  | subtype => false
  | _ => true

theorem eq_subtype_or_isSymmetric (kind : Relation) : kind = subtype ∨ kind.isSymmetric = true := by
  cases kind <;> simp [isSymmetric]

def name : Relation → String
  | comparable => "Comparable"
  | equality => "Equality"
  | inequality => "Inequality"
  | subtype => "Subtype"

def symbol : Relation → String
  | comparable => "<>"
  | equality => "=="
  | inequality => "!="
  | subtype => "<:"

def holds (lattice : Lattice) : Relation → Qualifier → Qualifier → Bool
  | comparable, a, b => lattice.isComparable a b
  | equality, a, b => a == b
  | inequality, a, b => a != b
  | subtype, a, b => lattice.isSubtype a b

-- The same for qualifiers that may be unknown to the lattice, as far as its table is looked at.
def holds? (lattice : Lattice) : Relation → Qualifier → Qualifier → Option Bool
  | comparable, a, b => lattice.isComparable? a b
  | equality, a, b => some (a == b)
  | inequality, a, b => some (a != b)
  | subtype, a, b => lattice.isSubtype? a b

end Relation

-- The functions of two qualifiers that a lattice has tables for: viewpoint adaptation of the
-- second by the first, and arithmetic.
inductive TableFunction where
  | adapt
  | arithmetic (operation : Operation)
deriving DecidableEq, Repr

namespace TableFunction

def symbol : TableFunction → String
  | adapt => "|>"
  | arithmetic operation => operation.symbol

def apply (lattice : Lattice) : TableFunction → Qualifier → Qualifier → Qualifier
  | adapt, a, b => lattice.adapt a b
  | arithmetic operation, a, b => lattice.arithmetic operation a b

end TableFunction

-- What is required of slots. A `function` gives its result slot the value of a table; an
-- `existential` has one branch for when the potential slot is present and one for when it is
-- absent; a `preference` is soft and its goal is the constant slot of the qualifier.
inductive Constraint where
  | alwaysTrue
  | alwaysFalse
  | relation (kind : Relation) (first second : SlotId) (location : Location)
  | function (table : TableFunction) (left right result : SlotId) (location : Location)
  | preference (subject goal : SlotId) (q : Qualifier) (weight : Nat) (location : Location)
  | existential (potential : SlotId) (present absent : List Constraint) (location : Location)
  | implication (assumptions : List Constraint) (conclusion : Constraint) (location : Location)
deriving Repr

namespace Constraint

def ofBool (value : Bool) : Constraint :=
  if value then alwaysTrue else alwaysFalse

def isSoft : Constraint → Bool
  | preference .. => true
  | _ => false

def isAlwaysTrue : Constraint → Bool
  | alwaysTrue => true
  | _ => false

def isAlwaysFalse : Constraint → Bool
  | alwaysFalse => true
  | _ => false

-- The name of the kind, used in messages, statistics and scripts.
def kindName : Constraint → String
  | alwaysTrue => "AlwaysTrue"
  | alwaysFalse => "AlwaysFalse"
  | relation kind .. => kind.name
  | function .adapt .. => "Combine"
  | function (.arithmetic _) .. => "Arithmetic"
  | preference .. => "Preference"
  | existential .. => "Existential"
  | implication .. => "Implication"

def location : Constraint → Location
  | alwaysTrue => .missing
  | alwaysFalse => .missing
  | relation _ _ _ location => location
  | function _ _ _ _ location => location
  | preference _ _ _ _ location => location
  | existential _ _ _ location => location
  | implication _ _ location => location

mutual

-- The slots of a constraint and its parts, in order of appearance.
def slots : Constraint → List SlotId
  | alwaysTrue => []
  | alwaysFalse => []
  | relation _ first second _ => [first, second]
  | function _ left right result _ => [left, right, result]
  | preference subject goal _ _ _ => [subject, goal]
  | existential potential present absent _ => potential :: (slotsOfAll present ++ slotsOfAll absent)
  | implication assumptions conclusion _ => slotsOfAll assumptions ++ slots conclusion

def slotsOfAll : List Constraint → List SlotId
  | [] => []
  | c :: rest => slots c ++ slotsOfAll rest

end

mutual

def text : Constraint → String
  | alwaysTrue => "true"
  | alwaysFalse => "false"
  | relation kind first second _ => s!"{first.text} {kind.symbol} {second.text}"
  | function table left right result _ => s!"{result.text} := {left.text} {table.symbol} {right.text}"
  | preference subject goal _ weight _ => s!"prefer {subject.text} == {goal.text} (weight {weight})"
  | existential potential present absent _ =>
      "if exists(" ++ potential.text ++ ") \x7b " ++ ", ".intercalate (textOfAll present) ++
        " \x7d else \x7b " ++ ", ".intercalate (textOfAll absent) ++ " \x7d"
  | implication assumptions conclusion _ =>
      "(" ++ " & ".intercalate (textOfAll assumptions) ++ ") => " ++ text conclusion

def textOfAll : List Constraint → List String
  | [] => []
  | c :: rest => text c :: textOfAll rest

end

end Constraint

end Qualify
