namespace Qualify.Text

-- Adds one to the count of a name in a list sorted by name.
def countName (name : String) : List (String × Nat) → List (String × Nat)
  | [] => [(name, 1)]
  | (other, count) :: rest =>
      if name = other then (other, count + 1) :: rest
      else if name < other then (name, 1) :: (other, count) :: rest
      else (other, count) :: countName name rest

-- How often each name occurs, sorted by name.
def tally (names : List String) : List (String × Nat) :=
  names.foldl (fun counts name => countName name counts) []

end Qualify.Text
