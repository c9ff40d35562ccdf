import Qualify.Fault

namespace Qualify

-- A boolean variable is a positive number, and its negation is the negative of that number.
abbrev Literal := Int

-- A clause holds when one of its literals does.
abbrev Clause := List Literal

abbrev Valuation := Nat → Bool

def Literal.holds (valuation : Valuation) (l : Literal) : Bool :=
  if 0 < l then valuation l.natAbs else !valuation l.natAbs

def Clause.holds (valuation : Valuation) (clause : Clause) : Bool :=
  clause.any (Literal.holds valuation)

-- Literals are held in 32 bits with a sign, and the bits beyond are lost.
def Literal.narrow (n : Int) : Literal :=
  Int.bmod n 0x100000000

def Literal.isWord (n : Int) : Bool :=
  -0x80000000 ≤ n && n < 0x80000000

-- 32 bits hold the negation of every literal but the least one.
def Literal.isNegatable (l : Literal) : Bool :=
  isWord (-l)

-- Whether a literal belongs to one of the variables from one to `count`.
def Literal.isWithin (count : Nat) (l : Literal) : Bool :=
  l != 0 && l.natAbs ≤ count

namespace Clause

-- Literals are negated without a bound, and clauses are refused when a negation has no room.
def checked (clauses : List Clause) : Except Fault (List Clause) :=
  if clauses.all (·.all Literal.isWord) then .ok clauses else .error .overflow

-- All ways to pick one literal of each clause and negate it. The picks of the last clause change
-- fastest. Together they say that not all the clauses hold.
def refutations : List Clause → List Clause
  | [] => [[]]
  | clause :: rest =>
      let tails := refutations rest
      clause.flatMap fun l => tails.map (-l :: ·)

-- The members that are looked at for all ways to pick one of each list. Where a list is empty there
-- is no way, and that is found out when the first members of the lists before it have been picked.
def picked {α : Type} (lists : List (List α)) : List α :=
  if lists.any (·.isEmpty) then (lists.takeWhile (!·.isEmpty)).flatMap (·.take 1) else lists.flatten

-- How many ways there are.
def picks : List Clause → Nat
  | [] => 1
  | clause :: rest => clause.length * picks rest

-- The clauses that say: if all the assumptions hold, so do the conclusions.
def implying (assumptions conclusions : List Clause) : List Clause :=
  (refutations assumptions).flatMap fun refutation => conclusions.map (refutation ++ ·)

-- As many clauses as a list can hold: each takes 24 bytes, and the bytes are counted in 63 bits.
def room : Nat :=
  0x7FFFFFFFFFFFFFFF / 24

-- The same clauses where there is room for them.
def distribute (assumptions conclusions : List Clause) : Except Fault (List Clause) :=
  if (picked assumptions).all Literal.isNegatable && picks assumptions ≤ room &&
      picks assumptions * conclusions.length ≤ room then
    .ok (implying assumptions conclusions)
  else .error .overflow

-- Products are computed in 64 bits.
def multiply (a b : Nat) : Except Fault Nat :=
  if a * b < 0x10000000000000000 then .ok (a * b) else .error .overflow

-- How many clauses an implication has to come to. The numbers are multiplied one after the other,
-- and the product may be too large before it gets zero.
def arity (assumptions conclusions : List Clause) : Except Fault Nat := do
  let ways ← assumptions.foldlM (fun ways clause => multiply ways clause.length) 1
  multiply ways conclusions.length

-- The pairs of members of a list, the earlier one first.
def pairsOf {α : Type} : List α → List (α × α)
  | [] => []
  | a :: rest => rest.map (fun b => (a, b)) ++ pairsOf rest

def atMostOne (literals : List Literal) : List Clause :=
  (pairsOf literals).map fun (a, b) => [-a, -b]

def exactlyOne (literals : List Literal) : List Clause :=
  literals :: atMostOne literals

end Clause

end Qualify
