import Qualify.Slot.Id
import Qualify.Text.Blank
import Qualify.Text.Numeral

namespace Qualify

-- What stands on a program element before it is resolved to a slot: the placeholder of a slot or
-- the name of a qualifier.
inductive Annot where
  | placeholder (id : SlotId)
  | named (name : String)
deriving DecidableEq, Repr

namespace Annot

def placeholderOpening : List Char :=
  "@VarAnnot(".toList

def text : Annot → String
  | placeholder id => String.ofList (placeholderOpening ++ id.text.toList ++ [')'])
  | named name => String.ofList ('@' :: name.toList)

-- The inside of a placeholder, where blanks around the number are accepted.
def parseNumber (inside : List Char) : Option SlotId := do
  let number ← Text.readNat32 (Text.trim inside)
  SlotId.ofNumber? number

-- Removes the closing parenthesis of a placeholder.
def dropClosing (body : List Char) : Option (List Char) :=
  match body.reverse with
  | ')' :: rest => some rest.reverse
  | _ => none

def parseName (body : List Char) : Option Annot :=
  let name := match body with
    | '@' :: rest => rest
    | _ => body
  if name.isEmpty then none else some (named (String.ofList name))

-- A text that opens like a placeholder is never read as a name.
def parse (text : String) : Option Annot :=
  let body := Text.trim text.toList
  if placeholderOpening.isPrefixOf body then do
    let inside ← dropClosing (body.drop placeholderOpening.length)
    let id ← parseNumber inside
    return placeholder id
  else parseName body

end Annot

end Qualify
