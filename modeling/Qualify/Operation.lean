namespace Qualify

-- The binary arithmetic operations of the analysed programs.
inductive Operation where
  | and
  | divide
  | leftShift
  | minus
  | multiply
  | or
  | plus
  | remainder
  | rightShift
  | unsignedRightShift
  | xor
deriving DecidableEq, Repr

namespace Operation

def all : List Operation :=
  [and, divide, leftShift, minus, multiply, or, plus, remainder, rightShift, unsignedRightShift, xor]

def symbol : Operation → String
  | and => "&"
  | divide => "/"
  | leftShift => "<<"
  | minus => "-"
  | multiply => "*"
  | or => "|"
  | plus => "+"
  | remainder => "%"
  | rightShift => ">>"
  | unsignedRightShift => ">>>"
  | xor => "^"

end Operation

end Qualify
