namespace Qualify.Text.Utf8

-- What is written for bytes that encode no character.
def replacement : Char :=
  Char.ofNat 0xFFFD

-- How many bytes follow a leading byte, and between which bounds the first of them lies. The
-- bounds leave out overlong forms, surrogates and what lies beyond the last code point.
def following (lead : Nat) : Option (Nat × Nat × Nat) :=
  if 0xC2 ≤ lead && lead ≤ 0xDF then some (1, 0x80, 0xBF)
  else if lead == 0xE0 then some (2, 0xA0, 0xBF)
  else if lead == 0xED then some (2, 0x80, 0x9F)
  else if 0xE1 ≤ lead && lead ≤ 0xEF then some (2, 0x80, 0xBF)
  else if lead == 0xF0 then some (3, 0x90, 0xBF)
  else if 0xF1 ≤ lead && lead ≤ 0xF3 then some (3, 0x80, 0xBF)
  else if lead == 0xF4 then some (3, 0x80, 0x8F)
  else none

-- The bits of a leading byte that belong to the code point.
def payload (count lead : Nat) : Nat :=
  lead % (64 >>> count)

-- The code point begun in `code`, once `count` more bytes are read, and how many bytes were
-- taken. A byte out of bounds ends the sequence and is not taken.
def continuation (code count low high taken : Nat) : List UInt8 → Option Nat × Nat
  | [] => (if count = 0 then some code else none, taken)
  | byte :: rest =>
      if count = 0 then (some code, taken)
      else if low ≤ byte.toNat && byte.toNat ≤ high then
        continuation (code * 64 + byte.toNat % 64) (count - 1) 0x80 0xBF (taken + 1) rest
      else (none, taken)

-- Each longest sequence of bytes that starts no character becomes one replacement character.
-- `skip` counts the bytes that an earlier character has already used.
def decodeFrom (skip : Nat) : List UInt8 → List Char
  | [] => []
  | byte :: rest =>
      if 0 < skip then decodeFrom (skip - 1) rest
      else if byte.toNat < 0x80 then Char.ofNat byte.toNat :: decodeFrom 0 rest
      else match following byte.toNat with
        | none => replacement :: decodeFrom 0 rest
        | some (count, low, high) =>
            match continuation (payload count byte.toNat) count low high 0 rest with
            | (some code, taken) => Char.ofNat code :: decodeFrom taken rest
            | (none, taken) => replacement :: decodeFrom taken rest

-- Reads bytes as text, whatever they are.
def decode (bytes : List UInt8) : String :=
  String.ofList (decodeFrom 0 bytes)

end Qualify.Text.Utf8
