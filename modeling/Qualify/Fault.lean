namespace Qualify

-- What breaks a computation off, so that it has no answer: a number without room in its bits, or a
-- place outside of a list.
inductive Fault where
  | overflow
  | outOfRange
deriving DecidableEq, Repr

def Fault.text : Fault → String
  | overflow => "overflow"
  | outOfRange => "out of range"

end Qualify
