import Qualify.Lattice.Basic
import Qualify.Lattice.Closure

namespace Qualify.Lattice

-- What the user says of a lattice: its names, the direct subtype edges, and the entries in which
-- viewpoint adaptation `(receiver, declared, result)` and arithmetic
-- `(operation, left, right, result)` differ from their defaults.
structure Declaration where
  names : List String
  edges : List (String × String)
  views : List (String × String × String)
  operations : List (Operation × String × String × String)

inductive Error where
  | empty
  | duplicateQualifier (name : String)
  | unknownQualifier (name : String)
  | subtypeCycle (a b : String)
  | missingLeastUpperBound (a b : String)
deriving DecidableEq, Repr

def Error.message : Error → String
  | empty => "a qualifier lattice must contain at least one qualifier"
  | duplicateQualifier name => s!"qualifier `{name}' is declared more than once"
  | unknownQualifier name => s!"unknown qualifier `{name}'"
  | subtypeCycle a b => s!"qualifiers `{a}' and `{b}' are declared to be subtypes of each other"
  | missingLeastUpperBound a b => s!"qualifiers `{a}' and `{b}' do not have a least upper bound"

-- The first name that stands behind an equal one.
def firstRepeated : List String → List String → Option String
  | _, [] => none
  | seen, name :: rest => if seen.contains name then some name else firstRepeated (name :: seen) rest

def checkNonempty (names : List String) : Except Error Unit :=
  if names.isEmpty then .error .empty else .ok ()

def checkDistinct (names : List String) : Except Error Unit :=
  match firstRepeated [] names with
  | some name => .error (.duplicateQualifier name)
  | none => .ok ()

def resolve (names : List String) (name : String) : Except Error Qualifier :=
  match names.idxOf? name with
  | some q => .ok q
  | none => .error (.unknownQualifier name)

def resolveEdge (names : List String) (edge : String × String) : Except Error (Qualifier × Qualifier) := do
  let sub ← resolve names edge.1
  let sup ← resolve names edge.2
  return (sub, sup)

-- All pairs of positions, row after row.
def pairs (size : Nat) : List (Nat × Nat) :=
  (List.range size).flatMap fun a => (List.range size).map fun b => (a, b)

-- Two different qualifiers that are subtypes of each other lie on a cycle of edges.
def checkAcyclic (names : List String) (order : Table Bool) : Except Error Unit :=
  match (pairs names.length).find? fun (a, b) => a < b && order.holds a b && order.holds b a with
  | some (a, b) => .error (.subtypeCycle (names.getD a "") (names.getD b ""))
  | none => .ok ()

def upperBounds (order : Table Bool) (a b : Qualifier) : List Qualifier :=
  (List.range order.size).filter fun c => order.holds a c && order.holds b c

def leastUpperBound? (order : Table Bool) (a b : Qualifier) : Option Qualifier :=
  (upperBounds order a b).find? fun c => (upperBounds order a b).all fun d => order.holds c d

def joinTable (names : List String) (order : Table Bool) : Except Error (Table Qualifier) := do
  let cells ← (pairs names.length).mapM fun (a, b) =>
    match leastUpperBound? order a b with
    | some c => .ok c
    | none => .error (.missingLeastUpperBound (names.getD a "") (names.getD b ""))
  return ⟨names.length, cells.toArray⟩

-- The result of an entry is looked up before its operands.
def setEntry (names : List String) (table : Table Qualifier) (left right result : String) :
    Except Error (Table Qualifier) := do
  let result ← resolve names result
  let left ← resolve names left
  let right ← resolve names right
  return table.set left right result

-- A receiver changes nothing unless an entry says so.
def viewTable (names : List String) (entries : List (String × String × String)) :
    Except Error (Table Qualifier) :=
  entries.foldlM (fun table (receiver, declared, result) => setEntry names table receiver declared result)
    (Table.ofFn names.length fun _ declared => declared)

-- The table of an operation starts as the table of least upper bounds. The newest version of a
-- table stands first.
def operationTables (names : List String) (joins : Table Qualifier)
    (entries : List (Operation × String × String × String)) :
    Except Error (List (Operation × Table Qualifier)) :=
  entries.foldlM (fun tables (operation, left, right, result) => do
    let table ← setEntry names ((tables.lookup operation).getD joins) left right result
    return (operation, table) :: tables) []

def build (declaration : Declaration) : Except Error Lattice := do
  let names := declaration.names
  checkNonempty names
  checkDistinct names
  let edges ← declaration.edges.mapM (resolveEdge names)
  let order := Closure.closure names.length edges
  checkAcyclic names order
  let joins ← joinTable names order
  let views ← viewTable names declaration.views
  let operations ← operationTables names joins declaration.operations
  return { names, order, joins, views, operations }

end Qualify.Lattice
