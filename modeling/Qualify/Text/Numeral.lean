namespace Qualify.Text

def digit? (c : Char) : Option Nat :=
  if '0' ≤ c ∧ c ≤ '9' then some (c.toNat - '0'.toNat) else none

-- Reads digits only, and at least one of them. Leading zeros are accepted.
def readDigits (text : List Char) : Option Nat :=
  if text.isEmpty then none
  else text.foldlM (fun value c => (digit? c).map (10 * value + ·)) 0

-- An optional plus sign may stand before the digits. Values from `bound` on are refused.
def readNat (bound : Nat) (text : List Char) : Option Nat :=
  let digits := match text with
    | '+' :: rest => rest
    | _ => text
  (readDigits digits).filter (· < bound)

-- Reads a numeral into 32 bits.
def readNat32 (text : List Char) : Option Nat :=
  readNat 0x100000000 text

-- Reads a signed numeral into a word of 64 bits, refusing what does not fit.
def readInt64 (text : List Char) : Option Int64 :=
  let value : Option Int := match text with
    | '+' :: rest => (readDigits rest).map Int.ofNat
    | '-' :: rest => (readDigits rest).map fun n => -(n : Int)
    | _ => (readDigits text).map Int.ofNat
  (value.filter fun n => -0x8000000000000000 ≤ n && n < 0x8000000000000000).map Int64.ofInt

end Qualify.Text
