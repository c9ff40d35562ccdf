import Qualify.Operation
import Qualify.Table

namespace Qualify

-- A qualifier is the position of its name in the declaration of the lattice.
abbrev Qualifier := Nat

-- Positions are held in 32 bits.
def Qualifier.ofIndex? (index : Nat) : Option Qualifier :=
  if index < 0x100000000 then some index else none

-- A finite set of qualifiers with its subtype order and its tables. `operations` holds the
-- tables of the operations that differ from the least upper bound somewhere.
structure Lattice where
  names : List String
  order : Table Bool
  joins : Table Qualifier
  views : Table Qualifier
  operations : List (Operation × Table Qualifier)
deriving Repr

namespace Lattice

variable (lattice : Lattice)

def size : Nat :=
  lattice.names.length

def qualifiers : List Qualifier :=
  List.range lattice.size

def contains (q : Qualifier) : Bool :=
  q < lattice.size

def find? (name : String) : Option Qualifier :=
  lattice.names.idxOf? name

def name? (q : Qualifier) : Option String :=
  lattice.names[q]?

def isSubtype? (sub sup : Qualifier) : Option Bool :=
  lattice.order.get? sub sup

-- The second direction is looked up only when the first does not hold.
def isComparable? (a b : Qualifier) : Option Bool := do
  if ← lattice.isSubtype? a b then return true
  lattice.isSubtype? b a

def lub? (a b : Qualifier) : Option Qualifier :=
  lattice.joins.get? a b

def adapt? (receiver declared : Qualifier) : Option Qualifier :=
  lattice.views.get? receiver declared

def arithmetic? (operation : Operation) (left right : Qualifier) : Option Qualifier :=
  ((lattice.operations.lookup operation).getD lattice.joins).get? left right

def subtypes? (q : Qualifier) : Option (List Qualifier) :=
  lattice.qualifiers.filterM fun t => lattice.isSubtype? t q

def supertypes? (q : Qualifier) : Option (List Qualifier) :=
  lattice.qualifiers.filterM fun t => lattice.isSubtype? q t

-- The functions below are for the qualifiers of the lattice, where every look-up succeeds.

def name (q : Qualifier) : String :=
  (lattice.name? q).getD ""

def isSubtype (sub sup : Qualifier) : Bool :=
  lattice.order.holds sub sup

def isComparable (a b : Qualifier) : Bool :=
  lattice.isSubtype a b || lattice.isSubtype b a

def lub (a b : Qualifier) : Qualifier :=
  (lattice.lub? a b).getD 0

def adapt (receiver declared : Qualifier) : Qualifier :=
  (lattice.adapt? receiver declared).getD 0

def arithmetic (operation : Operation) (left right : Qualifier) : Qualifier :=
  (lattice.arithmetic? operation left right).getD 0

def subtypes (q : Qualifier) : List Qualifier :=
  lattice.qualifiers.filter fun t => lattice.isSubtype t q

def supertypes (q : Qualifier) : List Qualifier :=
  lattice.qualifiers.filter fun t => lattice.isSubtype q t

def incomparable (q : Qualifier) : List Qualifier :=
  lattice.qualifiers.filter fun t => !lattice.isSubtype q t && !lattice.isSubtype t q

def incomparable? (q : Qualifier) : Option (List Qualifier) :=
  if lattice.contains q then some (lattice.incomparable q) else none

def isStrictSubtype (a b : Qualifier) : Bool :=
  a != b && lattice.isSubtype a b

-- The qualifiers without a strict supertype.
def tops : List Qualifier :=
  lattice.qualifiers.filter fun a => !lattice.qualifiers.any fun b => lattice.isStrictSubtype a b

-- The qualifiers without a strict subtype.
def bottoms : List Qualifier :=
  lattice.qualifiers.filter fun a => !lattice.qualifiers.any fun b => lattice.isStrictSubtype b a

def top? : Option Qualifier :=
  match lattice.tops with
  | [t] => some t
  | _ => none

def bottom? : Option Qualifier :=
  match lattice.bottoms with
  | [b] => some b
  | _ => none

end Lattice

end Qualify
