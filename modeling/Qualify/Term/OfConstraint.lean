import Qualify.Constraint.Route
import Qualify.Term.Basic

namespace Qualify

namespace Term

variable (lattice : Lattice)

-- A slot takes one of the qualifiers that pass a test.
def oneOf (id : SlotId) (allowed : Qualifier → Bool) : Term :=
  or ((lattice.qualifiers.filter allowed).map (is id))

-- Whatever the first slot takes, the second takes a qualifier that goes with it.
def related (first second : SlotId) (allowed : Qualifier → Qualifier → Bool) : Term :=
  and (lattice.qualifiers.map fun p => implies (is first p) (oneOf lattice second (allowed p)))

def variableConstant (kind : Relation) (id : SlotId) (q : Qualifier) : Term :=
  match kind with
  | .comparable => oneOf lattice id fun t => lattice.isComparable t q
  | .equality => is id q
  | .inequality => not (is id q)
  | .subtype => oneOf lattice id fun t => lattice.isSubtype t q

def constantVariable (kind : Relation) (q : Qualifier) (id : SlotId) : Term :=
  match kind with
  | .subtype => oneOf lattice id fun u => lattice.isSubtype q u
  | _ => variableConstant lattice kind id q

def variableVariable (kind : Relation) (first second : SlotId) : Term :=
  match kind with
  | .comparable => related lattice first second lattice.isComparable
  | .equality => same first second
  | .inequality => not (same first second)
  | .subtype => related lattice first second lattice.isSubtype

def ofRelation (kind : Relation) : RelationRoute → Term
  | .constantVariable q id => constantVariable lattice kind q id
  | .variableConstant id q => variableConstant lattice kind id q
  | .variableVariable first second => variableVariable lattice kind first second

def ofFunction (table : TableFunction) (result : SlotId) : Operand × Operand → Term
  | (.constant a, .constant b) => is result (table.apply lattice a b)
  | (.constant a, .slot right) => and (lattice.qualifiers.map fun b =>
      implies (is right b) (is result (table.apply lattice a b)))
  | (.slot left, .constant b) => and (lattice.qualifiers.map fun a =>
      implies (is left a) (is result (table.apply lattice a b)))
  | (.slot left, .slot right) => and (lattice.qualifiers.flatMap fun a => lattice.qualifiers.map fun b =>
      implies (and [is left a, is right b]) (is result (table.apply lattice a b)))

end Term

namespace Constraint

variable (registry : Registry)

mutual

-- The term of a hard constraint.
def term : Constraint → Except Inconsistency Term
  | alwaysTrue => .ok (.const true)
  | alwaysFalse => .ok (.const false)
  | relation kind first second location => do
      let route ← registry.relationRoute kind first second location
      return Term.ofRelation registry.lattice kind route
  | function table left right result location => do
      let operands ← registry.functionRoute table left right result location
      return Term.ofFunction registry.lattice table result operands
  | preference subject goal q weight location =>
      .error (.nestedSoft (preference subject goal q weight location))
  | existential potential present absent _ => do
      let present ← termsOfAll present
      let absent ← termsOfAll absent
      return .and [.implies (.exists potential) (.and present),
        .implies (.not (.exists potential)) (.and absent)]
  | implication assumptions conclusion _ => do
      let assumptions ← termsOfAll assumptions
      let conclusion ← term conclusion
      return .implies (.and assumptions) conclusion

def termsOfAll : List Constraint → Except Inconsistency (List Term)
  | [] => .ok []
  | c :: rest => do
      let first ← term c
      let others ← termsOfAll rest
      return first :: others

end

end Constraint

end Qualify
