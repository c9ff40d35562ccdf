import Qualify.Proofs.Script.Sexp
import Qualify.Proofs.Term.Simplify

namespace Qualify

def SlotId.ofSymbol? (stem word : String) : Option SlotId :=
  if stem.toList.isPrefixOf word.toList then
    (Text.readNat32 (word.toList.drop stem.toList.length)).bind ofNumber?
  else none

theorem SlotId.ofSymbol?_append (stem : String) (id : SlotId) :
    ofSymbol? stem (stem ++ id.text) = some id := by
  rw [ofSymbol?, String.toList_append, if_pos (by simp), List.drop_left]
  exact id.read_text

namespace Term

mutual

def sexp : Term → Sexp
  | const value => .atom (if value then "true" else "false")
  | and terms => .list (.atom "and" :: sexpOfAll terms)
  | or terms => .list (.atom "or" :: sexpOfAll terms)
  | not term => .list [.atom "not", sexp term]
  | implies antecedent consequent => .list [.atom "=>", sexp antecedent, sexp consequent]
  | .exists potential => .atom (existsSymbol potential)
  | is id q => .list [.atom "=", .atom (slotSymbol id), .atom (toString q)]
  | same first second => .list [.atom "=", .atom (slotSymbol first), .atom (slotSymbol second)]
  | range id bound => .list [.atom "and", .list [.atom ">=", .atom (slotSymbol id), .atom "0"],
      .list [.atom "<", .atom (slotSymbol id), .atom (toString bound)]]

def sexpOfAll : List Term → List Sexp
  | [] => []
  | term :: rest => sexp term :: sexpOfAll rest

end

def readEquation : List Sexp → Option Term
  | [.atom first, .atom second] => do
      let id ← SlotId.ofSymbol? "slot" first
      match SlotId.ofSymbol? "slot" second with
      | some other => return same id other
      | none => return is id (← Text.readDigits second.toList)
  | _ => none

def readRange : List Sexp → Option Term
  | [.list [.atom atLeast, .atom low, .atom zero], .list [.atom below, .atom high, .atom bound]] =>
      if atLeast = ">=" ∧ zero = "0" ∧ below = "<" ∧ low = high then do
        let id ← SlotId.ofSymbol? "slot" low
        return range id (← Text.readDigits bound.toList)
      else none
  | _ => none

def connect : String → List Term → Option Term
  | "or", terms => some (or terms)
  | "not", [term] => some (not term)
  | "=>", [antecedent, consequent] => some (implies antecedent consequent)
  | _, _ => none

mutual

-- The term that is meant by an expression. A range looks like a conjunction of its bounds, which
-- are no terms by themselves.
def ofSexp : Sexp → Option Term
  | .atom word =>
      if word = "true" then some (const true)
      else if word = "false" then some (const false)
      else (SlotId.ofSymbol? "exists" word).map .exists
  | .list (.atom head :: members) =>
      if head = "=" then readEquation members
      else if head = "and" then (readRange members).or ((ofSexps members).map and)
      else (ofSexps members).bind (connect head)
  | .list _ => none

def ofSexps : List Sexp → Option (List Term)
  | [] => some []
  | first :: rest => do
      let term ← ofSexp first
      let terms ← ofSexps rest
      return term :: terms

end

def read (text : String) : Option Term :=
  match Sexp.readAll text.toList with
  | some [sexp] => ofSexp sexp
  | _ => none

section Layout

open Token

theorem sexpOfAll_eq (terms : List Term) : sexpOfAll terms = terms.map sexp := by
  induction terms with
  | nil => rfl
  | cons term rest ih => rw [sexpOfAll, ih, List.map_cons]

theorem isPlain_slotSymbol (id : SlotId) : isPlain (.atom (slotSymbol id)) = true :=
  isPlain_numbered (by decide) id.number

theorem isPlain_existsSymbol (id : SlotId) : isPlain (.atom (existsSymbol id)) = true :=
  isPlain_numbered (by decide) id.number

theorem isPlain_toString (n : Nat) : isPlain (.atom (toString n)) = true := by
  have hplain := @isPlain_numbered "" (by decide) n
  rwa [String.empty_append] at hplain

-- A single term takes no blank behind it; every other is followed by one.
theorem layout_members {terms : List Term}
    (h : ∀ term ∈ terms, Layout term.sexp.tokens term.text.toList) :
    Layout (Sexp.tokensOfAll (sexpOfAll terms))
      ([' '].intercalate ((textOfAll terms).map String.toList)) := by
  induction terms with
  | nil => exact .nil
  | cons term rest ih =>
      obtain ⟨hterm, hrest⟩ := List.forall_mem_cons.mp h
      cases rest with
      | nil =>
          rw [sexpOfAll, sexpOfAll, Sexp.tokensOfAll, Sexp.tokensOfAll, List.append_nil, textOfAll,
            textOfAll, List.map_singleton, List.intercalate_singleton]
          exact hterm
      | cons next rest =>
          rw [sexpOfAll, Sexp.tokensOfAll, textOfAll, List.map_cons,
            List.intercalate_cons_of_ne_nil (by simp [textOfAll]), List.append_assoc]
          exact hterm.spaced (ih hrest)

-- The text of a term holds the words of its expression, with blanks where they are needed.
theorem layout_text (term : Term) : Layout term.sexp.tokens term.text.toList := by
  induction term with
  | const value => cases value <;> exact .word (by decide)
  | and terms ih =>
      have hgroup := Layout.group (by decide : isPlain (.atom "and") = true) (layout_members ih)
      simpa [text, sexp, String.toList_intercalate] using hgroup
  | or terms ih =>
      have hgroup := Layout.group (by decide : isPlain (.atom "or") = true) (layout_members ih)
      simpa [text, sexp, String.toList_intercalate] using hgroup
  | not term ih =>
      have hgroup := Layout.group (by decide : isPlain (.atom "not") = true) ih.single
      simpa [text, sexp] using hgroup
  | implies antecedent consequent ihantecedent ihconsequent =>
      have hgroup := Layout.group (by decide : isPlain (.atom "=>") = true)
        (ihantecedent.cons ihconsequent.single)
      simpa [text, sexp] using hgroup
  | exists_ potential => exact .word (isPlain_existsSymbol potential)
  | is id q =>
      have hgroup := Layout.group (by decide : isPlain (.atom "=") = true)
        (@Layout.cons (.atom _) [.atom _] _ _ (.word (isPlain_slotSymbol id))
          (.word (isPlain_toString q)))
      simpa [text, sexp] using hgroup
  | same first second =>
      have hgroup := Layout.group (by decide : isPlain (.atom "=") = true)
        (@Layout.cons (.atom _) [.atom _] _ _ (.word (isPlain_slotSymbol first))
          (.word (isPlain_slotSymbol second)))
      simpa [text, sexp] using hgroup
  | range id bound =>
      have hlow := Layout.group (by decide : isPlain (.atom ">=") = true)
        (@Layout.cons (.atom _) [.atom "0"] _ _ (.word (isPlain_slotSymbol id))
          (.word (by decide)))
      have hhigh := Layout.group (by decide : isPlain (.atom "<") = true)
        (@Layout.cons (.atom _) [.atom _] _ _ (.word (isPlain_slotSymbol id))
          (.word (isPlain_toString bound)))
      have hgroup := Layout.group (by decide : isPlain (.atom "and") = true) (hlow.cons hhigh.single)
      simpa [text, sexp] using hgroup

end Layout

section Reading

theorem readDigits_toString (n : Nat) : Text.readDigits (toString n).toList = some n := by
  rw [Text.toList_toString, Text.readDigits_numeral (Text.isNumeral_toDigits n),
    Text.numberOf_toDigits]

theorem ofSymbol?_slotSymbol (id : SlotId) : SlotId.ofSymbol? "slot" (slotSymbol id) = some id :=
  SlotId.ofSymbol?_append "slot" id

theorem ofSymbol?_existsSymbol (id : SlotId) :
    SlotId.ofSymbol? "exists" (existsSymbol id) = some id :=
  SlotId.ofSymbol?_append "exists" id

-- A position is not taken for a slot.
theorem ofSymbol?_toString (n : Nat) : SlotId.ofSymbol? "slot" (toString n) = none := by
  refine if_neg fun hstem => ?_
  rw [List.isPrefixOf_iff_prefix, Text.toList_toString] at hstem
  have hdigit : 's'.isDigit = true :=
    List.all_eq_true.mp (Text.isNumeral_toDigits n).2 's' (hstem.subset (by decide))
  cases hdigit

theorem readEquation_is (id : SlotId) (q : Qualifier) :
    readEquation [.atom (slotSymbol id), .atom (toString q)] = some (is id q) := by
  rw [readEquation, ofSymbol?_slotSymbol, ofSymbol?_toString, readDigits_toString]
  rfl

theorem readEquation_same (first second : SlotId) :
    readEquation [.atom (slotSymbol first), .atom (slotSymbol second)] =
      some (same first second) := by
  rw [readEquation, ofSymbol?_slotSymbol, ofSymbol?_slotSymbol]
  rfl

theorem readRange_range (id : SlotId) (bound : Nat) :
    readRange [.list [.atom ">=", .atom (slotSymbol id), .atom "0"],
      .list [.atom "<", .atom (slotSymbol id), .atom (toString bound)]] =
        some (range id bound) := by
  rw [readRange, if_pos ⟨rfl, rfl, rfl, rfl⟩, ofSymbol?_slotSymbol, readDigits_toString]
  rfl

theorem ofSexp_exists (potential : SlotId) :
    ofSexp (.atom (existsSymbol potential)) = some (.exists potential) := by
  have hconst : ∀ word : String, word.toList.head? ≠ some 'e' → existsSymbol potential ≠ word := by
    rintro word hword rfl
    exact hword (by simp [existsSymbol])
  rw [ofSexp, if_neg (hconst "true" (by decide)), if_neg (hconst "false" (by decide)),
    ofSymbol?_existsSymbol, Option.map_some]

-- No term is a bound of a range.
theorem sexp_ne_bound (term : Term) (members : List Sexp) :
    term.sexp ≠ .list (.atom ">=" :: members) := by
  cases term <;> simp [sexp]

theorem readRange_sexpOfAll (terms : List Term) : readRange (sexpOfAll terms) = none := by
  unfold readRange
  split
  · rename_i atLeast low zero below high bound heq
    refine if_neg ?_
    rintro ⟨rfl, -⟩
    cases terms with
    | nil => cases heq
    | cons term rest => exact sexp_ne_bound term _ (List.cons.inj heq).1
  · rfl

theorem ofSexps_sexpOfAll {terms : List Term} (h : ∀ term ∈ terms, ofSexp term.sexp = some term) :
    ofSexps (sexpOfAll terms) = some terms := by
  induction terms with
  | nil => rfl
  | cons term rest ih =>
      obtain ⟨hterm, hrest⟩ := List.forall_mem_cons.mp h
      simp [sexpOfAll, ofSexps, hterm, ih hrest]

theorem ofSexp_sexp (term : Term) : ofSexp term.sexp = some term := by
  induction term with
  | const value => cases value <;> rfl
  | and terms ih =>
      simp [sexp, ofSexp, readRange_sexpOfAll, ofSexps_sexpOfAll ih]
  | or terms ih =>
      simp [sexp, ofSexp, ofSexps_sexpOfAll ih, connect]
  | not term ih => simp [sexp, ofSexp, ofSexps, ih, connect]
  | implies antecedent consequent ihantecedent ihconsequent =>
      simp [sexp, ofSexp, ofSexps, ihantecedent, ihconsequent, connect]
  | exists_ potential => exact ofSexp_exists potential
  | is id q => exact readEquation_is id q
  | same first second => exact readEquation_same first second
  | range id bound =>
      rw [sexp, ofSexp, if_neg (by decide), if_pos rfl, readRange_range, Option.some_or]

theorem read_text (term : Term) : read term.text = some term := by
  rw [read, Sexp.readAll_layout (layout_text term).single]
  exact ofSexp_sexp term

end Reading

-- A term can be told by its text, and there is a way to read it.
theorem text_unambiguous :
    (∀ term other : Term, term.text = other.text ↔ term = other) ∧
      ∀ term : Term, read term.text = some term := by
  refine ⟨fun term other => ⟨fun h => ?_, fun h => h ▸ rfl⟩, read_text⟩
  have hread := read_text term
  rw [h, read_text other] at hread
  exact (Option.some.inj hread).symm

end Term

end Qualify
