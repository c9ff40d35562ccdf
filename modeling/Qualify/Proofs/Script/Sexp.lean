import Qualify.Proofs.Script.Layout
import Qualify.Proofs.Slot.Annotation

namespace Qualify

inductive Sexp where
  | atom (word : String)
  | list (members : List Sexp)
deriving Repr

namespace Sexp

@[elab_as_elim, induction_eliminator]
theorem induction {motive : Sexp → Prop} (atom : ∀ word, motive (.atom word))
    (list : ∀ members, (∀ member ∈ members, motive member) → motive (.list members))
    (sexp : Sexp) : motive sexp := by
  refine @Sexp.rec motive (fun members => ∀ member ∈ members, motive member) atom list ?_ ?_ sexp
  · intro member hmember
    cases hmember
  · intro first rest hfirst hrest
    exact List.forall_mem_cons.mpr ⟨hfirst, hrest⟩

mutual

def tokens : Sexp → List Token
  | atom word => [.atom word]
  | list members => .opening :: (tokensOfAll members ++ [.closing])

def tokensOfAll : List Sexp → List Token
  | [] => []
  | first :: rest => tokens first ++ tokensOfAll rest

end

def words (sexp : Sexp) : List String :=
  sexp.tokens.filterMap Reply.atom?

theorem words_atom (word : String) : (atom word).words = [word] :=
  rfl

theorem tokensOfAll_eq (sexps : List Sexp) : tokensOfAll sexps = sexps.flatMap tokens := by
  induction sexps with
  | nil => rfl
  | cons first rest ih => rw [tokensOfAll, ih, List.flatMap_cons]

theorem words_list (members : List Sexp) : (list members).words = members.flatMap words := by
  have hopening : Reply.atom? .opening = none := rfl
  have hclosing : [Token.closing].filterMap Reply.atom? = [] := rfl
  rw [words, tokens, tokensOfAll_eq, List.filterMap_cons_none hopening, List.filterMap_append,
    hclosing, List.append_nil, List.filterMap_flatMap]
  rfl

-- `members` is what the list being read has so far, backwards, and `outer` are the lists around it
-- that are not closed yet.
def readFrom (outer : List (List Sexp)) (members : List Sexp) : List Token → Option (List Sexp)
  | [] => if outer.isEmpty then some members.reverse else none
  | .atom word :: rest => readFrom outer (atom word :: members) rest
  | .opening :: rest => readFrom (members :: outer) [] rest
  | .closing :: rest =>
      match outer with
      | [] => none
      | enclosing :: outer => readFrom outer (list members.reverse :: enclosing) rest

def readAll (text : List Char) : Option (List Sexp) :=
  readFrom [] [] (Token.scan text)

section Reading

variable (outer : List (List Sexp)) (rest : List Token)

theorem readFrom_tokensOfAll {sexps : List Sexp}
    (h : ∀ sexp ∈ sexps, ∀ outer members rest,
      readFrom outer members (sexp.tokens ++ rest) = readFrom outer (sexp :: members) rest)
    (members : List Sexp) :
    readFrom outer members (tokensOfAll sexps ++ rest) =
      readFrom outer (sexps.reverse ++ members) rest := by
  induction sexps generalizing members with
  | nil => rfl
  | cons first others ih =>
      obtain ⟨hfirst, hothers⟩ := List.forall_mem_cons.mp h
      rw [tokensOfAll, List.append_assoc, hfirst, ih hothers, List.reverse_cons, List.append_assoc]
      rfl

-- What follows an expression does not matter for reading it.
theorem readFrom_tokens (sexp : Sexp) : ∀ outer members rest,
    readFrom outer members (sexp.tokens ++ rest) = readFrom outer (sexp :: members) rest := by
  induction sexp with
  | atom word => exact fun outer members rest => rfl
  | list parts ih =>
      intro outer members rest
      rw [tokens, List.cons_append, List.append_assoc, readFrom,
        readFrom_tokensOfAll (members :: outer) _ ih, List.append_nil, List.singleton_append,
        readFrom, List.reverse_reverse]

theorem readAll_layout {sexps : List Sexp} {text : List Char}
    (h : Token.Layout (tokensOfAll sexps) text) : readAll text = some sexps := by
  have hread := @readFrom_tokensOfAll [] [] sexps (fun sexp _ => readFrom_tokens sexp) []
  rw [List.append_nil, List.append_nil] at hread
  rw [readAll, Token.scan_layout h, hread, readFrom, List.reverse_reverse]
  rfl

end Reading

end Sexp

namespace Token

theorem Ends.append {text : List Char} (h : Ends text) {more : List Char} (hmore : Ends more) :
    Ends (text ++ more) := by
  cases text with
  | nil => exact hmore
  | cons c text => exact h

theorem Layout.append {tokens others : List Token} {text more : List Char} (h : Layout tokens text)
    (hmore : Layout others more) (hends : Ends more) : Layout (tokens ++ others) (text ++ more) := by
  induction h with
  | nil => exact hmore
  | blank hc _ ih => exact .blank hc ih
  | opening _ ih => exact .opening ih
  | closing _ ih => exact .closing ih
  | atom hne hwrites hrest _ ih =>
      rw [List.append_assoc]
      exact .atom hne hwrites (hrest.append hends) ih

theorem Layout.spaced {tokens others : List Token} {text more : List Char} (h : Layout tokens text)
    (hmore : Layout others more) : Layout (tokens ++ others) (text ++ ' ' :: more) :=
  h.append (.blank rfl hmore) (by simp [Ends, isDelimiter]; decide)

theorem Layout.word {word : String} (h : isPlain (.atom word) = true) :
    Layout [.atom word] word.toList := by
  obtain ⟨hne, hwrites, -⟩ := writes_of_isPlain h
  rw [← List.append_nil word.toList]
  exact .atom hne hwrites (by simp [Ends]) .nil

theorem Layout.single {sexp : Sexp} {text : List Char} (h : Layout sexp.tokens text) :
    Layout (Sexp.tokensOfAll [sexp]) text := by
  rw [Sexp.tokensOfAll, Sexp.tokensOfAll, List.append_nil]
  exact h

theorem Layout.cons {first : Sexp} {rest : List Sexp} {text more : List Char}
    (h : Layout first.tokens text) (hmore : Layout (Sexp.tokensOfAll rest) more) :
    Layout (Sexp.tokensOfAll (first :: rest)) (text ++ ' ' :: more) :=
  h.spaced hmore

-- A list whose first member is a word.
theorem Layout.group {head : String} (hhead : isPlain (.atom head) = true) {members : List Sexp}
    {text : List Char} (h : Layout (Sexp.tokensOfAll members) text) :
    Layout (Sexp.list (.atom head :: members)).tokens
      ('(' :: (head.toList ++ ' ' :: (text ++ [')']))) := by
  have hclosed : Layout (Sexp.tokensOfAll members ++ [.closing]) (text ++ [')']) :=
    h.append (.closing .nil) (by simp [Ends, isDelimiter])
  exact .opening ((Layout.word hhead).spaced hclosed)

-- A word that ends in a number.
theorem isPlain_numbered {stem : String}
    (h : stem.toList.all (fun c => c ≠ '|' && !isDelimiter c) = true) (n : Nat) :
    isPlain (.atom (stem ++ toString n)) = true := by
  obtain ⟨hne, hdigits⟩ := Text.isNumeral_toDigits n
  have hlist : (stem ++ toString n).toList = stem.toList ++ Nat.toDigits 10 n := by
    rw [String.toList_append, Text.toList_toString]
  have hword : stem ++ toString n ≠ "" := by
    intro heq
    rw [← String.toList_inj, hlist] at heq
    exact hne (List.append_eq_nil_iff.mp heq).2
  have hnumber : (Nat.toDigits 10 n).all (fun c => c ≠ '|' && !isDelimiter c) = true := by
    refine List.all_eq_true.mpr fun c hc => ?_
    have hdigit : c.isDigit = true := List.all_eq_true.mp hdigits c hc
    have hne : ∀ d : Char, d.isDigit = false → c ≠ d := by
      rintro d hd rfl
      cases hdigit.symm.trans hd
    simp [isDelimiter, Text.isBlank_of_isDigit hdigit, hne '|' rfl, hne '(' rfl, hne ')' rfl]
  rw [isPlain, hlist, List.all_append, h, hnumber, decide_eq_true hword]
  rfl

end Token

end Qualify
