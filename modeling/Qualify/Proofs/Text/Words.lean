import Qualify.Proofs.Text.Lines
import Qualify.Proofs.Text.Numeral

namespace Qualify.Text

def words (text : List Char) : List String :=
  ((text.splitOnP isBlank).filter (· ≠ [])).map String.ofList

def IsWord (word : String) : Prop :=
  word ≠ "" ∧ word.toList.all (fun c => !isBlank c) = true

instance (word : String) : Decidable (IsWord word) :=
  inferInstanceAs (Decidable (_ ∧ _))

theorem IsWord.isBlank_eq_false {word : String} (h : IsWord word) {c : Char}
    (hc : c ∈ word.toList) : isBlank c = false := by
  simpa using List.all_eq_true.mp h.2 c hc

theorem IsWord.toList_ne_nil {word : String} (h : IsWord word) : word.toList ≠ [] :=
  fun hnil => h.1 (String.toList_eq_nil_iff.mp hnil)

theorem isWord_toString_nat (n : Nat) : IsWord (toString n) := by
  obtain ⟨hne, hdigits⟩ := isNumeral_toDigits n
  rw [← toList_toString] at hne hdigits
  refine ⟨fun hempty => hne (by rw [hempty]; rfl), List.all_eq_true.mpr fun c hc => ?_⟩
  rw [isBlank_of_isDigit (List.all_eq_true.mp hdigits c hc)]
  rfl

theorem readDigits_toString (n : Nat) : readDigits (toString n).toList = some n := by
  rw [toList_toString, readDigits_numeral (isNumeral_toDigits n), numberOf_toDigits]

def readInt (word : List Char) : Option Int :=
  match word with
  | '-' :: digits => (readDigits digits).map fun n => -(n : Int)
  | digits => (readDigits digits).map Int.ofNat

theorem toString_int_cases (l : Int) :
    (∃ n : Nat, l = n ∧ toString l = toString n) ∨
      ∃ n : Nat, l = -(n : Int) ∧ toString l = "-" ++ toString n := by
  cases l with
  | ofNat n => exact .inl ⟨n, rfl, rfl⟩
  | negSucc n => exact .inr ⟨n + 1, rfl, rfl⟩

theorem readInt_toString (l : Int) : readInt (toString l).toList = some l := by
  rcases toString_int_cases l with ⟨n, rfl, htext⟩ | ⟨n, rfl, htext⟩
  · have hnumeral : IsNumeral (toString n).toList := by
      rw [toList_toString]
      exact isNumeral_toDigits n
    rw [htext, readInt.eq_2 _ (hnumeral.head_ne (by decide)), readDigits_toString]
    rfl
  · have hminus : "-".toList = ['-'] := rfl
    rw [htext, String.toList_append, hminus, List.singleton_append, readInt, readDigits_toString]
    rfl

theorem isDigit_of_mem_toString {l : Int} {c : Char} (hc : c ∈ (toString l).toList) :
    c.isDigit = true ∨ c = '-' := by
  have hdigit : ∀ n : Nat, c ∈ (toString n).toList → c.isDigit = true := by
    intro n hn
    rw [toList_toString] at hn
    exact List.all_eq_true.mp (isNumeral_toDigits n).2 c hn
  rcases toString_int_cases l with ⟨n, -, htext⟩ | ⟨n, -, htext⟩
  · exact .inl (hdigit n (htext ▸ hc))
  · rw [htext, String.toList_append, List.mem_append] at hc
    exact hc.symm.imp (hdigit n) List.mem_singleton.mp

theorem isWord_toString_int (l : Int) : IsWord (toString l) := by
  have hminus : isBlank '-' = false := by decide
  constructor
  · rcases toString_int_cases l with ⟨n, -, htext⟩ | ⟨n, -, htext⟩
    · rw [htext]
      exact (isWord_toString_nat n).1
    · simp [htext]
  · refine List.all_eq_true.mpr fun c hc => ?_
    rcases isDigit_of_mem_toString hc with hdigit | rfl
    · rw [isBlank_of_isDigit hdigit]
      rfl
    · rw [hminus]
      rfl

theorem words_append (text : List Char) {c : Char} (hc : isBlank c = true) (rest : List Char) :
    words (text ++ c :: rest) = words text ++ words rest := by
  rw [words, List.splitOnP_append_cons _ _ hc, List.filter_append, List.map_append]
  rfl

theorem words_singleton {word : String} (h : IsWord word) : words word.toList = [word] := by
  rw [words, List.splitOnP_eq_singleton fun c hc => h.isBlank_eq_false hc]
  simp [h.toList_ne_nil]

theorem toList_intercalate_cons (word next : String) (row : List String) :
    (" ".intercalate (word :: next :: row)).toList =
      word.toList ++ ' ' :: (" ".intercalate (next :: row)).toList := by
  rw [String.intercalate_cons_cons, String.toList_append, String.toList_append, List.append_assoc]
  rfl

section Row

variable {row : List String} (h : ∀ word ∈ row, IsWord word)
include h

-- Words that are written one after the other are read back.
theorem words_intercalate : words (" ".intercalate row).toList = row := by
  have hspace : isBlank ' ' = true := by decide
  induction row with
  | nil => rfl
  | cons word row ih =>
      obtain ⟨hword, hrow⟩ := List.forall_mem_cons.mp h
      cases row with
      | nil => rw [String.intercalate_singleton, words_singleton hword]
      | cons next row =>
          rw [toList_intercalate_cons, words_append _ hspace, words_singleton hword, ih hrow]
          rfl

theorem isBlank_of_mem_intercalate {c : Char} (hc : c ∈ (" ".intercalate row).toList) :
    isBlank c = false ∨ c = ' ' := by
  induction row with
  | nil => cases hc
  | cons word row ih =>
      obtain ⟨hword, hrow⟩ := List.forall_mem_cons.mp h
      cases row with
      | nil =>
          rw [String.intercalate_singleton] at hc
          exact .inl (hword.isBlank_eq_false hc)
      | cons next row =>
          rw [toList_intercalate_cons, List.mem_append, List.mem_cons] at hc
          rcases hc with hc | hc | hc
          · exact .inl (hword.isBlank_eq_false hc)
          · exact .inr hc
          · exact ih hrow hc

end Row

def page (rows : List (List String)) : String :=
  String.join ((rows.map " ".intercalate).map (· ++ "\n"))

theorem lines_page {rows : List (List String)} (h : ∀ row ∈ rows, ∀ word ∈ row, IsWord word) :
    lines (page rows).toList = rows.map fun row => (" ".intercalate row).toList := by
  have hfeed : isBlank '\n' = true := by decide
  have hreturn : isBlank '\r' = true := by decide
  rw [page, lines_join, List.map_map]
  · rfl
  · refine List.forall_mem_map.mpr fun row hrow => ⟨fun hmem => ?_, fun hmem => ?_⟩
    · simpa [hfeed] using isBlank_of_mem_intercalate (h row hrow) hmem
    · simpa [hreturn] using isBlank_of_mem_intercalate (h row hrow) hmem

end Qualify.Text
