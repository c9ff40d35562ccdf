namespace Qualify.Text

-- The characters with the Unicode property `White_Space`.
def isBlank (c : Char) : Bool :=
  let code := c.toNat
  (9 ≤ code && code ≤ 13) || code == 0x20 || code == 0x85 || code == 0xA0 || code == 0x1680 ||
    (0x2000 ≤ code && code ≤ 0x200A) || code == 0x2028 || code == 0x2029 || code == 0x202F ||
    code == 0x205F || code == 0x3000

def trimStart (text : List Char) : List Char :=
  text.dropWhile isBlank

def trimEnd (text : List Char) : List Char :=
  (text.reverse.dropWhile isBlank).reverse

def trim (text : List Char) : List Char :=
  trimEnd (trimStart text)

-- A carriage return belongs to the line ending only right before the line feed. The line is
-- held backwards here.
def dropReturn : List Char → List Char
  | '\r' :: line => line
  | line => line

-- `line` is the part of the current line already read, backwards.
def linesFrom (line : List Char) : List Char → List (List Char)
  | [] => if line.isEmpty then [] else [line.reverse]
  | '\n' :: rest => (dropReturn line).reverse :: linesFrom [] rest
  | c :: rest => linesFrom (c :: line) rest

-- The lines of a text, without their endings. A text that ends in a line feed has no empty last line.
def lines (text : List Char) : List (List Char) :=
  linesFrom [] text

end Qualify.Text
