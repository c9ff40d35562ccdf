import Mathlib.Data.List.Basic
import Qualify.Text.Numeral

namespace Qualify.Text

-- At least one digit, and nothing else. Leading zeros are allowed.
def IsNumeral (digits : List Char) : Prop :=
  digits ≠ [] ∧ digits.all Char.isDigit = true

instance (digits : List Char) : Decidable (IsNumeral digits) :=
  inferInstanceAs (Decidable (_ ∧ _))

def numberOf (digits : List Char) : Nat :=
  Nat.ofDigitChars 10 digits 0

theorem isNumeral_toDigits (n : Nat) : IsNumeral (Nat.toDigits 10 n) :=
  ⟨Nat.toDigits_ne_nil, List.all_eq_true.mpr fun _ hc =>
    Nat.isDigit_of_mem_toDigits (by decide) (by decide) hc⟩

theorem numberOf_toDigits (n : Nat) : numberOf (Nat.toDigits 10 n) = n :=
  Nat.ofDigitChars_toDigits (by decide) (by decide)

theorem toList_toString (n : Nat) : (toString n).toList = Nat.toDigits 10 n := by
  rw [Nat.toString_eq_repr, Nat.toList_repr]

theorem digit?_of_isDigit {c : Char} (h : c.isDigit = true) :
    digit? c = some (c.toNat - '0'.toNat) := by
  refine if_pos ?_
  simpa [Char.isDigit, Char.le_def] using h

theorem foldlM_digits {digits : List Char} (h : digits.all Char.isDigit = true) (value : Nat) :
    digits.foldlM (fun value c => (digit? c).map (10 * value + ·)) value =
      some (Nat.ofDigitChars 10 digits value) := by
  induction digits generalizing value with
  | nil => rfl
  | cons c digits ih =>
      obtain ⟨hc, hdigits⟩ := Bool.and_eq_true_iff.mp h
      rw [List.foldlM_cons, digit?_of_isDigit hc, Nat.ofDigitChars_cons]
      exact ih hdigits _

theorem readDigits_numeral {digits : List Char} (h : IsNumeral digits) :
    readDigits digits = some (numberOf digits) := by
  rw [readDigits, if_neg (by simpa using h.1)]
  exact foldlM_digits h.2 0

theorem isDigit_of_digit? {c : Char} {d : Nat} (h : digit? c = some d) : c.isDigit = true := by
  unfold digit? at h
  split at h
  · next hrange => simpa [Char.isDigit, Char.le_def] using hrange
  · cases h

theorem all_isDigit_of_foldlM {text : List Char} {value n : Nat}
    (h : text.foldlM (fun value c => (digit? c).map (10 * value + ·)) value = some n) :
    text.all Char.isDigit = true := by
  induction text generalizing value with
  | nil => rfl
  | cons c text ih =>
      rw [List.foldlM_cons] at h
      obtain ⟨next, hnext, h⟩ := Option.bind_eq_some_iff.mp h
      obtain ⟨d, hd, -⟩ := Option.map_eq_some_iff.mp hnext
      simp [isDigit_of_digit? hd, ih h]

-- Nothing but numerals is read.
theorem readDigits_eq_some_iff {text : List Char} {n : Nat} :
    readDigits text = some n ↔ IsNumeral text ∧ numberOf text = n := by
  constructor
  · intro h
    have hnumeral : IsNumeral text := by
      unfold readDigits at h
      split at h
      · cases h
      · next hne => exact ⟨by simpa using hne, all_isDigit_of_foldlM h⟩
    rw [readDigits_numeral hnumeral] at h
    exact ⟨hnumeral, Option.some.inj h⟩
  · rintro ⟨hnumeral, rfl⟩
    exact readDigits_numeral hnumeral

-- A numeral does not start with a sign.
theorem IsNumeral.head_ne {digits : List Char} (h : IsNumeral digits) {c : Char}
    (hc : c.isDigit = false) (rest : List Char) : digits ≠ c :: rest := by
  rintro rfl
  cases hc.symm.trans (List.all_eq_true.mp h.2 c List.mem_cons_self)

theorem readNat_numeral {digits : List Char} (h : IsNumeral digits) {bound : Nat}
    (hlt : numberOf digits < bound) : readNat bound digits = some (numberOf digits) := by
  unfold readNat
  split
  · exact absurd rfl (h.head_ne (by decide) _)
  · dsimp only
    rw [readDigits_numeral h]
    exact Option.filter_some_pos (decide_eq_true hlt)

-- At most one sign is taken off; the digits are then read without a bound and compared with it.
theorem readNat_eq_some_iff {bound n : Nat} {text : List Char} :
    readNat bound text = some n ↔
      ∃ digits, IsNumeral digits ∧ (text = digits ∨ text = '+' :: digits) ∧ numberOf digits = n ∧
        n < bound := by
  have hfilter : ∀ digits : List Char,
      (readDigits digits).filter (fun n => decide (n < bound)) = some n ↔
        IsNumeral digits ∧ numberOf digits = n ∧ n < bound := by
    intro digits
    rw [Option.filter_eq_some_iff, readDigits_eq_some_iff, decide_eq_true_eq, and_assoc]
  constructor
  · intro h
    unfold readNat at h
    split at h
    · obtain ⟨hnumeral, hn, hlt⟩ := (hfilter _).mp h
      exact ⟨_, hnumeral, .inr rfl, hn, hlt⟩
    · obtain ⟨hnumeral, hn, hlt⟩ := (hfilter _).mp h
      exact ⟨_, hnumeral, .inl rfl, hn, hlt⟩
  · rintro ⟨digits, hnumeral, rfl | rfl, rfl, hlt⟩
    · exact readNat_numeral hnumeral hlt
    · exact (hfilter digits).mpr ⟨hnumeral, rfl, hlt⟩

theorem fits_toInt (value : Int64) :
    ((some value.toInt).filter fun n => -0x8000000000000000 ≤ n && n < 0x8000000000000000).map
      Int64.ofInt = some value := by
  have hlow := value.le_toInt
  have hhigh := value.toInt_lt
  rw [Option.filter_some_pos (by simp; omega), Option.map_some, Int64.ofInt_toInt]

theorem readInt64_numeral {digits : List Char} (h : IsNumeral digits) {value : Int64}
    (hvalue : value.toInt = numberOf digits) : readInt64 digits = some value := by
  unfold readInt64
  split
  · exact absurd rfl (h.head_ne (by decide) _)
  · exact absurd rfl (h.head_ne (by decide) _)
  · dsimp only
    rw [readDigits_numeral h, Option.map_some, ← fits_toInt value, hvalue]
    rfl

theorem readInt64_negative {digits : List Char} (h : IsNumeral digits) {value : Int64}
    (hvalue : value.toInt = -(numberOf digits : Int)) : readInt64 ('-' :: digits) = some value := by
  rw [← fits_toInt value, hvalue]
  simp only [readInt64, readDigits_numeral h]
  rfl

inductive Spells : List Char → Int → Prop
  | unsigned {digits : List Char} (h : IsNumeral digits) : Spells digits (numberOf digits)
  | plus {digits : List Char} (h : IsNumeral digits) : Spells ('+' :: digits) (numberOf digits)
  | minus {digits : List Char} (h : IsNumeral digits) : Spells ('-' :: digits) (-numberOf digits)

-- Exactly the numbers of 64 bits are read, in all their spellings.
theorem readInt64_eq_some_iff {text : List Char} {value : Int64} :
    readInt64 text = some value ↔ Spells text value.toInt := by
  have hword : ∀ number : Option Int,
      (number.filter fun n => -0x8000000000000000 ≤ n && n < 0x8000000000000000).map
        Int64.ofInt = some value ↔ number = some value.toInt := by
    intro number
    constructor
    · intro h
      obtain ⟨n, hn, rfl⟩ := Option.map_eq_some_iff.mp h
      obtain ⟨rfl, hfits⟩ := Option.filter_eq_some_iff.mp hn
      simp only [Bool.and_eq_true, decide_eq_true_eq] at hfits
      rw [Int64.toInt_ofInt_of_le hfits.1 hfits.2]
    · rintro rfl
      exact fits_toInt value
  constructor
  · intro h
    unfold readInt64 at h
    dsimp only at h
    rw [hword] at h
    split at h
    · obtain ⟨n, hn, hvalue⟩ := Option.map_eq_some_iff.mp h
      obtain ⟨hnumeral, rfl⟩ := readDigits_eq_some_iff.mp hn
      exact hvalue ▸ .plus hnumeral
    · obtain ⟨number, hnumber, hvalue⟩ := Option.map_eq_some_iff.mp h
      obtain ⟨n, hn, hcast⟩ := Option.bind_eq_some_iff.mp hnumber
      obtain ⟨hnumeral, rfl⟩ := readDigits_eq_some_iff.mp hn
      rw [← hvalue, ← Option.some.inj hcast]
      exact .minus hnumeral
    · obtain ⟨n, hn, hvalue⟩ := Option.map_eq_some_iff.mp h
      obtain ⟨hnumeral, rfl⟩ := readDigits_eq_some_iff.mp hn
      exact hvalue ▸ .unsigned hnumeral
  · intro h
    generalize hvalue : value.toInt = number at h
    cases h with
    | unsigned h => exact readInt64_numeral h hvalue
    | plus h =>
        rw [readInt64, hword, readDigits_numeral h, hvalue]
        rfl
    | minus h => exact readInt64_negative h hvalue

theorem takeWhile_numbered {stem : List Char} (hstem : stem.all (fun c => !c.isDigit) = true)
    {digits : List Char} (hdigits : IsNumeral digits) :
    (stem ++ digits).takeWhile (fun c => !c.isDigit) = stem := by
  have hstop : digits.takeWhile (fun c => !c.isDigit) = [] := by
    cases digits with
    | nil => rfl
    | cons c digits =>
        have hc : c.isDigit = true := List.all_eq_true.mp hdigits.2 c List.mem_cons_self
        exact List.takeWhile_cons_of_neg (by simp [hc])
  rw [List.takeWhile_append_of_pos (List.all_eq_true.mp hstem), hstop, List.append_nil]

-- The number after a stem without digits can be told from it.
theorem append_toString_inj {stem other : String}
    (hstem : stem.toList.all (fun c => !c.isDigit) = true)
    (hother : other.toList.all (fun c => !c.isDigit) = true) {m n : Nat}
    (h : stem ++ toString m = other ++ toString n) : stem = other ∧ m = n := by
  have hlists : stem.toList ++ Nat.toDigits 10 m = other.toList ++ Nat.toDigits 10 n := by
    rw [← toList_toString, ← toList_toString, ← String.toList_append, ← String.toList_append, h]
  have hsame : stem.toList = other.toList := by
    rw [← takeWhile_numbered hstem (isNumeral_toDigits m), hlists,
      takeWhile_numbered hother (isNumeral_toDigits n)]
  rw [hsame] at hlists
  refine ⟨String.toList_inj.mp hsame, ?_⟩
  rw [← numberOf_toDigits m, List.append_cancel_left hlists, numberOf_toDigits]

end Qualify.Text
