namespace Qualify

-- Where a slot or a constraint comes from. `path` leads into the syntax tree at the position, as
-- to one of the type arguments of a declaration, and is empty at the root.
inductive Location where
  | missing
  | code (file : String) (line column : Nat) (path : String)
deriving DecidableEq, Repr

namespace Location

def isMissing : Location → Bool
  | missing => true
  | code .. => false

-- A missing location has no syntax tree to lead into.
def withPath (path : String) : Location → Location
  | missing => missing
  | code file line column _ => code file line column path

def text : Location → String
  | missing => "<missing>"
  | code file line column path =>
      s!"{file}:{line}:{column}" ++ if path.isEmpty then "" else s!" [{path}]"

end Location

end Qualify
