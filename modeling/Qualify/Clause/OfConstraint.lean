import Qualify.Clause.Numbering

namespace Qualify

namespace Numbering

variable (numbering : Numbering) (lattice : Lattice)

-- Forbids a slot the qualifiers that fail a test.
def forbid (id : SlotId) (allowed : Qualifier → Bool) : List Clause :=
  (lattice.qualifiers.filter fun q => !allowed q).map fun q => [-numbering.literal id q]

-- Forbids two slots the pairs of qualifiers that fail a test.
def forbidPairs (first second : SlotId) (allowed : Qualifier → Qualifier → Bool) : List Clause :=
  lattice.qualifiers.flatMap fun p =>
    (lattice.qualifiers.filter fun q => !allowed p q).map fun q =>
      [-numbering.literal first p, -numbering.literal second q]

def constantVariableClauses (kind : Relation) (q : Qualifier) (id : SlotId) : List Clause :=
  match kind with
  | .comparable => forbid numbering lattice id fun u => lattice.isComparable q u
  | .equality => [[numbering.literal id q]]
  | .inequality => [[-numbering.literal id q]]
  | .subtype => forbid numbering lattice id fun u => lattice.isSubtype q u

def variableConstantClauses (kind : Relation) (id : SlotId) (q : Qualifier) : List Clause :=
  match kind with
  | .subtype => forbid numbering lattice id fun t => lattice.isSubtype t q
  | _ => constantVariableClauses numbering lattice kind q id

def variableVariableClauses (kind : Relation) (first second : SlotId) : List Clause :=
  match kind with
  | .comparable => forbidPairs numbering lattice first second lattice.isComparable
  | .equality => lattice.qualifiers.flatMap fun q =>
      [[-numbering.literal first q, numbering.literal second q],
        [-numbering.literal second q, numbering.literal first q]]
  | .inequality => lattice.qualifiers.map fun q =>
      [-numbering.literal first q, -numbering.literal second q]
  | .subtype => forbidPairs numbering lattice first second lattice.isSubtype

def relationClauses (kind : Relation) : RelationRoute → List Clause
  | .constantVariable q id => constantVariableClauses numbering lattice kind q id
  | .variableConstant id q => variableConstantClauses numbering lattice kind id q
  | .variableVariable first second => variableVariableClauses numbering lattice kind first second

-- Each choice of qualifiers for the operands determines the qualifier of the result.
def functionClauses (table : TableFunction) (result : SlotId) : Operand × Operand → List Clause
  | (.constant a, .constant b) => [[numbering.literal result (table.apply lattice a b)]]
  | (.constant a, .slot right) => lattice.qualifiers.map fun b =>
      [-numbering.literal right b, numbering.literal result (table.apply lattice a b)]
  | (.slot left, .constant b) => lattice.qualifiers.map fun a =>
      [-numbering.literal left a, numbering.literal result (table.apply lattice a b)]
  | (.slot left, .slot right) => lattice.qualifiers.flatMap fun a => lattice.qualifiers.map fun b =>
      [-numbering.literal left a, -numbering.literal right b,
        numbering.literal result (table.apply lattice a b)]

-- A slot takes exactly one qualifier.
def wellFormedness (id : SlotId) : List Clause :=
  Clause.exactlyOne (lattice.qualifiers.map (numbering.literal id))

end Numbering

namespace Constraint

variable (registry : Registry) (numbering : Numbering)

-- The clauses of an implication, whose number is checked.
def distributed (c : Constraint) (assumptions conclusions : List Clause) :
    Except Inconsistency (List Clause) := do
  let clauses ← (Clause.distribute assumptions conclusions).mapError .fault
  let expected ← (Clause.arity assumptions conclusions).mapError .fault
  if clauses.length = expected then return clauses
  else .error (.implicationArity c expected clauses.length)

mutual

-- The clauses of a constraint, when the potential slots have their variables already.
def clausesWith : Constraint → Except Inconsistency (List Clause)
  | alwaysTrue => .ok []
  | alwaysFalse => .ok [[]]
  | relation kind first second location => do
      let route ← registry.relationRoute kind first second location
      (Clause.checked (numbering.relationClauses registry.lattice kind route)).mapError .fault
  | function table left right result location => do
      let operands ← registry.functionRoute table left right result location
      (Clause.checked (numbering.functionClauses registry.lattice table result operands)).mapError .fault
  | preference subject goal q weight location =>
      .error (.nestedSoft (preference subject goal q weight location))
  | existential potential present absent _ => do
      let presence ← (numbering.presence? potential).mapError .fault
      let present ← clausesOfAll [-presence] present
      let absent ← clausesOfAll [presence] absent
      return present ++ absent
  | implication assumptions conclusion location => do
      let assumed ← clausesOfAll [] assumptions
      let concluded ← clausesWith conclusion
      distributed (implication assumptions conclusion location) assumed concluded

-- The clauses of some constraints, each with the same literals at its end.
def clausesOfAll (ending : Clause) : List Constraint → Except Inconsistency (List Clause)
  | [] => .ok []
  | c :: rest => do
      let clauses ← clausesWith c
      let extended ← (Clause.checked (clauses.map (· ++ ending))).mapError .fault
      let others ← clausesOfAll ending rest
      return extended ++ others

end

-- The clauses of a constraint, together with the variables in use afterwards. A constraint that
-- cannot be encoded has used up the variables of the potential slots met before the failure.
def clauses (c : Constraint) : Except Inconsistency (List Clause) × Numbering :=
  let after := numbering.useAll (c.usedPotentials registry)
  (clausesWith registry after c, after)

end Constraint

end Qualify
