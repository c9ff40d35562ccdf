import Qualify.Constraint.Visit
import Qualify.Term.OfConstraint
import Qualify.Term.Simplify

namespace Qualify

-- What a script asks for: a model, a model that is best by the soft assertions, or the names of
-- assertions in conflict.
inductive ScriptMode where
  | satisfy
  | optimize
  | explain
deriving DecidableEq, Repr

-- What a named assertion stands for.
inductive Origin where
  | constraint (position : Nat)
  | wellFormedness (id : SlotId)
deriving DecidableEq, Repr

def Origin.position? : Origin → Option Nat
  | constraint position => some position
  | wellFormedness _ => none

structure Assertion where
  name : String
  origin : Origin
  term : Term
deriving Repr

-- A script with what is needed to read the reply to it: `slots` are the ones to be solved for.
structure Script where
  text : String
  names : List (String × Origin)
  slots : List SlotId
  hard : Nat
  soft : Nat
deriving Repr

namespace Script

-- The assertions of constraints from one position on. What simplifies to true is left out.
def hardFrom (registry : Registry) (position : Nat) :
    List Constraint → Except Inconsistency (List Assertion)
  | [] => .ok []
  | c :: rest => do
      if c.isSoft then hardFrom registry (position + 1) rest
      else
        match (← c.term registry).simplify with
        | .const true => hardFrom registry (position + 1) rest
        | .const false => .error (.triviallyFalse c)
        | term =>
            let others ← hardFrom registry (position + 1) rest
            return ⟨c.kindName ++ toString position, .constraint position, term⟩ :: others

def preferences (constraints : List Constraint) : List (Term × Nat) :=
  constraints.filterMap fun
    | .preference subject _ q weight _ => some (.is subject q, weight)
    | _ => none

-- Every slot takes one of the qualifiers.
def ranges (registry : Registry) : List Assertion :=
  registry.variableSlots.map fun id =>
    ⟨"WellFormedness" ++ id.text, .wellFormedness id, .range id registry.lattice.size⟩

def insertId (id : SlotId) : List SlotId → List SlotId
  | [] => [id]
  | other :: rest =>
      if id = other then other :: rest
      else if id.index < other.index then id :: other :: rest
      else other :: insertId id rest

-- The potential slots of the hard constraints, sorted and each of them once.
def existsSlots (constraints : List Constraint) : List SlotId :=
  (Constraint.potentialsOfAll constraints).foldl (fun ids id => insertId id ids) []

def assertionLine (mode : ScriptMode) (assertion : Assertion) : String :=
  if mode = .explain then s!"(assert (! {assertion.term.text} :named {assertion.name}))"
  else s!"(assert {assertion.term.text})"

def softLine (soft : Term × Nat) : String :=
  s!"(assert-soft {soft.1.text} :weight {soft.2})"

def lines (mode : ScriptMode) (count : Nat) (slots potentials : List SlotId)
    (hard : List Assertion) (soft : List (Term × Nat)) : List String :=
  [s!"; {slots.length} variable slots, {count} constraints"] ++
    (if mode = .explain then ["(set-option :produce-unsat-cores true)"] else []) ++
    slots.map (fun id => s!"(declare-const {Term.slotSymbol id} Int)") ++
    potentials.map (fun id => s!"(declare-const {Term.existsSymbol id} Bool)") ++
    hard.map (assertionLine mode) ++
    soft.map softLine ++
    ["(check-sat)", if mode = .explain then "(get-unsat-core)" else "(get-model)"]

-- The script of some constraints over the slots of a registry. Only an explanation names its
-- assertions, and only an optimization has soft ones.
def ofConstraints (registry : Registry) (constraints : List Constraint) (mode : ScriptMode) :
    Except Inconsistency Script := do
  let hard := ranges registry ++ (← hardFrom registry 0 constraints)
  let soft := if mode = .optimize then preferences constraints else []
  let text := lines mode constraints.length registry.variableSlots (existsSlots constraints) hard soft
  return {
    text := String.join (text.map (· ++ "\n"))
    names := if mode = .explain then hard.map fun a => (a.name, a.origin) else []
    slots := registry.variableSlots
    hard := hard.length
    soft := soft.length }

end Script

end Qualify
