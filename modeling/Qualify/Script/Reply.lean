import Qualify.Fault
import Qualify.Text.Blank
import Qualify.Text.Numeral

namespace Qualify

inductive Token where
  | opening
  | closing
  | atom (text : String)
deriving DecidableEq, Repr

namespace Token

-- An atom without characters is none.
def flush (atom : List Char) : List Token :=
  if atom.isEmpty then [] else [.atom (String.ofList atom.reverse)]

-- `atom` is the atom being read, backwards. Between vertical bars every character belongs to it;
-- the bars do not.
def scanFrom (quoted : Bool) (atom : List Char) : List Char → List Token
  | [] => flush atom
  | c :: rest =>
      if c = '|' then scanFrom (!quoted) atom rest
      else if quoted then scanFrom quoted (c :: atom) rest
      else if c = '(' then flush atom ++ .opening :: scanFrom quoted [] rest
      else if c = ')' then flush atom ++ .closing :: scanFrom quoted [] rest
      else if Text.isBlank c then flush atom ++ scanFrom quoted [] rest
      else scanFrom quoted (c :: atom) rest

def scan (text : List Char) : List Token :=
  scanFrom false [] text

end Token

-- What a solver prints: the integers of a model, or the names of assertions in conflict.
inductive Reply where
  | sat (values : List (String × Int64))
  | unsat (names : List String)
deriving DecidableEq, Repr

-- Why the output of a solver makes no sense.
inductive Malformation where
  | status (text : String)
  | definition
  | value (name : String)
  | notQualifier (name : String) (value : Int64)
  | unknownAssertion (name : String)
deriving DecidableEq, Repr

def Malformation.text : Malformation → String
  | status text => s!"unexpected solver status `{text}'"
  | definition => "malformed definition in model"
  | value name => s!"invalid value for `{name}' in model"
  | notQualifier name number => s!"value {number.toInt} of `{name}' is not a qualifier index"
  | unknownAssertion name => s!"unknown assertion `{name}' in unsatisfiable core"

-- A solver may give up, or print something else than a reply. A fault breaks the reading off.
inductive ReplyError where
  | fault (cause : Fault)
  | timeout
  | malformed (cause : Malformation)
deriving DecidableEq, Repr

namespace Reply

-- The least integer of 64 bits has no negative.
def negate (n : Int64) : Except Fault Int64 :=
  if n = Int64.minValue then .error .overflow else .ok (-n)

-- An integer is a numeral or the negative of one, written `(- N)`.
def readValue : List Token → Option (Except Fault Int64 × List Token)
  | .atom text :: rest => (Text.readInt64 text.toList).map fun n => (.ok n, rest)
  | .opening :: .atom minus :: .atom text :: .closing :: rest =>
      if minus = "-" then (Text.readInt64 text.toList).map fun n => (negate n, rest) else none
  | _ => none

theorem readValue_length {tokens : List Token} {value : Except Fault Int64} {rest : List Token}
    (h : readValue tokens = some (value, rest)) : rest.length < tokens.length := by
  unfold readValue at h
  split at h
  · simp only [Option.map_eq_some_iff, Prod.mk.injEq] at h
    obtain ⟨_, _, _, rfl⟩ := h
    simp
  · split at h
    · simp only [Option.map_eq_some_iff, Prod.mk.injEq] at h
      obtain ⟨_, _, _, rfl⟩ := h
      simp
      omega
    · simp at h
  · simp at h

-- The integer definitions of a model, `(define-fun NAME () Int VALUE)`. Definitions of other
-- sorts and whatever stands between are skipped.
def readModel (tokens : List Token) : Except ReplyError (List (String × Int64)) :=
  match tokens with
  | [] => .ok []
  | .atom "define-fun" :: rest =>
      match rest with
      | .atom name :: .opening :: .closing :: .atom sort :: body =>
          if sort = "Int" then
            match _h : readValue body with
            | some (value, others) => do
                let value ← value.mapError .fault
                let values ← readModel others
                return (name, value) :: values
            | none => .error (.malformed (.value name))
          else readModel body
      | _ => .error (.malformed .definition)
  | _ :: rest => readModel rest
termination_by tokens.length
decreasing_by
  · have := readValue_length _h
    simp
    omega
  · simp
    omega
  · simp

def atom? : Token → Option String
  | .atom text => some text
  | _ => none

-- The names in the list that the text starts with. Anything else, and an error message too, is
-- an empty list.
def readCore : List Token → List String
  | .opening :: .atom "error" :: _ => []
  | .opening :: token :: rest =>
      ((token :: rest).takeWhile (· != .closing)).filterMap atom?
  | _ => []

-- The first line that is not blank says how it went, and the rest is the model or the names.
def parse (output : String) : Except ReplyError Reply :=
  let lines := (Text.lines output.toList).dropWhile fun line => (Text.trim line).isEmpty
  let status := String.ofList (Text.trim (lines.headD []))
  let tokens := Token.scan (['\n'].intercalate (lines.drop 1))
  match status with
  | "sat" => (readModel tokens).map .sat
  | "unsat" => .ok (.unsat (readCore tokens))
  | "unknown" => .error .timeout
  | "timeout" => .error .timeout
  | _ => .error (.malformed (.status status))

end Reply

end Qualify
