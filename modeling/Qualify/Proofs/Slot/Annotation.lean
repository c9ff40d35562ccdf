import Mathlib.Data.List.DropRight
import Qualify.Proofs.Text.Lines
import Qualify.Proofs.Text.Numeral
import Qualify.Slot.Annot

namespace Qualify

namespace Text

theorem trimEnd_eq_self_iff {text : List Char} :
    trimEnd text = text ↔ ∀ c ∈ text.getLast?, isBlank c = false := by
  have hlast : trimEnd text = text ↔ ∀ hne : text ≠ [], ¬isBlank (text.getLast hne) = true :=
    List.rdropWhile_eq_self_iff
  rw [hlast]
  constructor
  · intro h c hc
    obtain ⟨hne, rfl⟩ := List.mem_getLast?_eq_getLast hc
    simpa using h hne
  · intro h hne
    simpa using h _ (List.getLast?_eq_some_getLast hne)

theorem trimEnd_cons {c : Char} (h : isBlank c = false) (text : List Char) :
    trimEnd (c :: text) = c :: trimEnd text := by
  induction text using List.reverseRecOn with
  | nil => exact trimEnd_eq_self_iff.mpr (by simpa using h)
  | append_singleton text last ih =>
      have hsnoc : ∀ text : List Char, trimEnd (text ++ [last]) =
          if isBlank last then trimEnd text else text ++ [last] :=
        fun text => List.rdropWhile_concat _ _ _
      rw [← List.cons_append, hsnoc, hsnoc, ih]
      split <;> rfl

-- Nothing is cut off at the start of a text that does not start with a blank.
theorem trim_cons {c : Char} (h : isBlank c = false) (text : List Char) :
    trim (c :: text) = c :: trimEnd text := by
  rw [trim, trimStart, List.dropWhile_cons_of_neg (by simp [h]), trimEnd_cons h]

end Text

-- The number of a slot is read back from its text.
theorem SlotId.read_text (id : SlotId) :
    (Text.readNat32 id.text.toList).bind ofNumber? = some id := by
  have hlt := id.index_lt
  rw [text, Text.toList_toString, Text.readNat32, Text.readNat_numeral (Text.isNumeral_toDigits _),
    Text.numberOf_toDigits]
  · simp [ofNumber?, ofIndex?, number, hlt]
  · rw [Text.numberOf_toDigits, number]
    omega

namespace Annot

def nameOpening : List Char :=
  "VarAnnot(".toList

-- The annotations that their text stands for: a name must not be empty, end in a blank or look
-- like a placeholder.
inductive Legible : Annot → Prop
  | placeholder (id : SlotId) : Legible (.placeholder id)
  | named {name : String} (hne : name ≠ "")
      (hlast : ∀ c ∈ name.toList.getLast?, Text.isBlank c = false)
      (hopening : ¬nameOpening <+: name.toList) : Legible (.named name)

theorem isPrefixOf_opening {body : List Char} :
    placeholderOpening.isPrefixOf ('@' :: body) = true ↔ nameOpening <+: body := by
  rw [List.isPrefixOf_iff_prefix]
  exact List.cons_prefix_cons.trans (and_iff_right rfl)

-- Blanks at the end are all that is lost before the kind of the annotation is looked at.
theorem parse_cons (rest : List Char) :
    parse (String.ofList ('@' :: rest)) =
      if nameOpening <+: Text.trimEnd rest then do
        let inside ← dropClosing ((Text.trimEnd rest).drop nameOpening.length)
        let id ← parseNumber inside
        return placeholder id
      else parseName ('@' :: Text.trimEnd rest) := by
  have htrim : Text.trim ('@' :: rest) = '@' :: Text.trimEnd rest :=
    Text.trim_cons (by decide) rest
  simp only [parse, String.toList_ofList, htrim, isPrefixOf_opening]
  rfl

theorem dropClosing_concat (inside : List Char) : dropClosing (inside ++ [')']) = some inside := by
  simp [dropClosing]

theorem parseNumber_text (id : SlotId) : parseNumber id.text.toList = some id := by
  have htrim : Text.trim id.text.toList = id.text.toList := by
    rw [SlotId.text, Text.toList_toString]
    have hdigits := (Text.isNumeral_toDigits id.number).2
    have hplain : ∀ c ∈ Nat.toDigits 10 id.number, Text.isBlank c = false := fun c hc =>
      Text.isBlank_of_isDigit (List.all_eq_true.mp hdigits c hc)
    simpa using @Text.trim_padded [] _ [] (by simp [Text.AllBlank]) (by simp [Text.AllBlank]) hplain
  rw [parseNumber, htrim]
  exact id.read_text

theorem parse_placeholder (id : SlotId) :
    parse (placeholder id).text = some (placeholder id) := by
  have hlast : Text.trimEnd (nameOpening ++ id.text.toList ++ [')']) =
      nameOpening ++ (id.text.toList ++ [')']) := by
    rw [Text.trimEnd_eq_self_iff.mpr (by simp; decide), List.append_assoc]
  have htext : (placeholder id).text =
      String.ofList ('@' :: (nameOpening ++ id.text.toList ++ [')'])) := rfl
  rw [htext, parse_cons, hlast, if_pos (List.prefix_append _ _), List.drop_left,
    dropClosing_concat]
  simp [parseNumber_text]

theorem parse_named (name : String) :
    parse (named name).text =
      if nameOpening <+: Text.trimEnd name.toList then do
        let inside ← dropClosing ((Text.trimEnd name.toList).drop nameOpening.length)
        let id ← parseNumber inside
        return placeholder id
      else if Text.trimEnd name.toList = [] then none
      else some (named (String.ofList (Text.trimEnd name.toList))) := by
  rw [text, parse_cons, parseName]
  simp only [List.isEmpty_iff]

-- All that a name can be taken for.
theorem parse_named_cases (name : String) :
    (nameOpening <+: Text.trimEnd name.toList ∧
      (parse (named name).text = none ∨ ∃ id, parse (named name).text = some (placeholder id))) ∨
    (Text.trimEnd name.toList = [] ∧ parse (named name).text = none) ∨
    (¬nameOpening <+: Text.trimEnd name.toList ∧ Text.trimEnd name.toList ≠ [] ∧
      parse (named name).text = some (named (String.ofList (Text.trimEnd name.toList)))) := by
  rw [parse_named]
  by_cases hopening : nameOpening <+: Text.trimEnd name.toList
  · rw [if_pos hopening]
    refine .inl ⟨hopening, ?_⟩
    cases hinside : dropClosing ((Text.trimEnd name.toList).drop nameOpening.length) with
    | none => exact .inl rfl
    | some inside =>
        cases hid : parseNumber inside with
        | none => exact .inl (by simp [hid])
        | some id => exact .inr ⟨id, by simp [hid]⟩
  · rw [if_neg hopening]
    by_cases hempty : Text.trimEnd name.toList = []
    · exact .inr (.inl ⟨hempty, if_pos hempty⟩)
    · exact .inr (.inr ⟨hopening, hempty, if_neg hempty⟩)

theorem parse_of_legible {annot : Annot} (h : annot.Legible) : parse annot.text = some annot := by
  cases h with
  | placeholder id => exact parse_placeholder id
  | @named name hne hlast hopening =>
      have htrim := Text.trimEnd_eq_self_iff.mpr hlast
      have hempty : name.toList ≠ [] := fun hnil => hne (String.toList_inj.mp hnil)
      rw [parse_named, htrim, if_neg hopening, if_neg hempty, String.ofList_toList]

-- Parsing drops blanks at the end, so that a name that survives it has none.
theorem legible_of_parse {annot : Annot} (h : parse annot.text = some annot) : annot.Legible := by
  cases annot with
  | placeholder id => exact .placeholder id
  | named name =>
      rcases parse_named_cases name with
        ⟨-, hnone | ⟨id, hid⟩⟩ | ⟨-, hnone⟩ | ⟨hopening, hempty, hsome⟩
      · cases h.symm.trans hnone
      · cases h.symm.trans hid
      · cases h.symm.trans hnone
      · have hname : name = String.ofList (Text.trimEnd name.toList) :=
          (Annot.named.inj (Option.some.inj (h.symm.trans hsome)))
        have htrim : Text.trimEnd name.toList = name.toList := by
          rw [← String.toList_inj, String.toList_ofList] at hname
          exact hname.symm
        rw [htrim] at hopening hempty
        refine .named (fun hnil => hempty (hnil ▸ rfl)) ?_ hopening
        exact Text.trimEnd_eq_self_iff.mp htrim

-- Reading the text of an annotation gives back the annotation exactly when it is legible. Any
-- other one is a name, of which nothing, a placeholder or a shorter name is read.
theorem parse_text_iff (annot : Annot) :
    (parse annot.text = some annot ↔ annot.Legible) ∧
      (¬annot.Legible → ∃ name, annot = .named name ∧
        (parse annot.text = none ∨ (∃ id, parse annot.text = some (.placeholder id)) ∨
          ∃ shorter, shorter.toList = Text.trimEnd name.toList ∧ shorter ≠ name ∧
            parse annot.text = some (.named shorter))) := by
  refine ⟨⟨legible_of_parse, parse_of_legible⟩, fun hillegible => ?_⟩
  cases annot with
  | placeholder id => exact absurd (.placeholder id) hillegible
  | named name =>
      refine ⟨name, rfl, ?_⟩
      rcases parse_named_cases name with ⟨-, hread⟩ | ⟨-, hnone⟩ | ⟨-, -, hsome⟩
      · exact hread.imp_right .inl
      · exact .inl hnone
      · refine .inr (.inr ⟨_, String.toList_ofList, fun hsame => hillegible ?_, hsome⟩)
        rw [hsame] at hsome
        exact legible_of_parse hsome

-- Blanks are lost at the end only, and what looks like a placeholder is read as one.
example : parse (named " Nullable").text = some (named " Nullable") ∧
    parse (named "Nullable ").text = some (named "Nullable") ∧
    parse (named "VarAnnot( 7 )").text = some (placeholder ⟨6, by decide⟩) ∧
    parse (named "VarAnnot(0)").text = none := by
  decide

end Annot

end Qualify
