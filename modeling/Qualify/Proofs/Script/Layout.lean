import Qualify.Proofs.Text.Lines
import Qualify.Script.Reply

namespace Qualify.Token

def isDelimiter (c : Char) : Bool :=
  Text.isBlank c || c == '(' || c == ')'

-- The two ways to write an atom: by itself, or between bars. Between bars more is allowed, but not
-- the end of a line.
inductive Writes (word : String) : List Char → Prop
  | plain (h : ∀ c ∈ word.toList, c ≠ '|' ∧ isDelimiter c = false) : Writes word word.toList
  | quoted (h : ∀ c ∈ word.toList, c ≠ '|' ∧ c ≠ '\n' ∧ c ≠ '\r') :
      Writes word ('|' :: (word.toList ++ ['|']))

def Ends (text : List Char) : Prop :=
  ∀ c ∈ text.head?, isDelimiter c = true

-- The texts in which some tokens are laid out. Blanks may stand between any two of them, and have
-- to between two atoms.
inductive Layout : List Token → List Char → Prop
  | nil : Layout [] []
  | blank {c : Char} {tokens : List Token} {text : List Char} (hc : Text.isBlank c = true)
      (h : Layout tokens text) : Layout tokens (c :: text)
  | opening {tokens : List Token} {text : List Char} (h : Layout tokens text) :
      Layout (.opening :: tokens) ('(' :: text)
  | closing {tokens : List Token} {text : List Char} (h : Layout tokens text) :
      Layout (.closing :: tokens) (')' :: text)
  | atom {word : String} {written : List Char} {tokens : List Token} {text : List Char}
      (hne : word ≠ "") (hwrites : Writes word written) (hends : Ends text)
      (h : Layout tokens text) : Layout (.atom word :: tokens) (written ++ text)

section Scan

theorem not_special_of_isBlank {c : Char} (h : Text.isBlank c = true) :
    c ≠ '|' ∧ c ≠ '(' ∧ c ≠ ')' := by
  refine ⟨?_, ?_, ?_⟩ <;> rintro rfl <;> cases h

theorem scanFrom_blank {c : Char} (h : Text.isBlank c = true) (atom text : List Char) :
    scanFrom false atom (c :: text) = flush atom ++ scanFrom false [] text := by
  obtain ⟨hbar, hopening, hclosing⟩ := not_special_of_isBlank h
  simp [scanFrom, h, hbar, hopening, hclosing]

theorem scanFrom_plain {word : List Char} (h : ∀ c ∈ word, c ≠ '|' ∧ isDelimiter c = false)
    (atom text : List Char) :
    scanFrom false atom (word ++ text) = scanFrom false (word.reverse ++ atom) text := by
  induction word generalizing atom with
  | nil => rfl
  | cons c word ih =>
      obtain ⟨⟨hbar, hplain⟩, hword⟩ := List.forall_mem_cons.mp h
      simp only [isDelimiter, Bool.or_eq_false_iff, beq_eq_false_iff_ne] at hplain
      obtain ⟨⟨hblank, hopening⟩, hclosing⟩ := hplain
      rw [List.reverse_cons, List.append_assoc, List.singleton_append, ← ih hword]
      simp [scanFrom, hbar, hblank, hopening, hclosing]

theorem scanFrom_quoted {word : List Char} (h : ∀ c ∈ word, c ≠ '|') (atom text : List Char) :
    scanFrom true atom (word ++ text) = scanFrom true (word.reverse ++ atom) text := by
  induction word generalizing atom with
  | nil => rfl
  | cons c word ih =>
      obtain ⟨hbar, hword⟩ := List.forall_mem_cons.mp h
      rw [List.reverse_cons, List.append_assoc, List.singleton_append, ← ih hword]
      simp [scanFrom, hbar]

theorem scanFrom_writes {word : String} {written : List Char} (h : Writes word written)
    (text : List Char) :
    scanFrom false [] (written ++ text) = scanFrom false word.toList.reverse text := by
  cases h with
  | plain h =>
      rw [scanFrom_plain h, List.append_nil]
  | quoted h =>
      rw [List.cons_append, List.append_assoc, scanFrom, if_pos rfl, Bool.not_false,
        scanFrom_quoted fun c hc => (h c hc).1, List.append_nil]
      rfl

theorem scanFrom_ends {text : List Char} (h : Ends text) (atom : List Char) :
    scanFrom false atom text = flush atom ++ scanFrom false [] text := by
  cases text with
  | nil => simp [scanFrom, flush]
  | cons c text =>
      have hc : isDelimiter c = true := h c rfl
      simp only [isDelimiter, Bool.or_eq_true, beq_iff_eq] at hc
      rcases hc with (hblank | rfl) | rfl
      · rw [scanFrom_blank hblank, scanFrom_blank hblank]
        rfl
      · simp [scanFrom, flush]
      · simp [scanFrom, flush]

theorem flush_reverse {word : String} (h : word ≠ "") : flush word.toList.reverse = [.atom word] := by
  have hne : word.toList ≠ [] := fun hnil => h (String.toList_inj.mp hnil)
  simp [flush, hne]

-- Reading gives back what has been laid out.
theorem scan_layout {tokens : List Token} {text : List Char} (h : Layout tokens text) :
    scan text = tokens := by
  unfold scan
  induction h with
  | nil => rfl
  | blank hc _ ih => rw [scanFrom_blank hc, ih]; rfl
  | opening _ ih => simp [scanFrom, flush, ih]
  | closing _ ih => simp [scanFrom, flush, ih]
  | atom hne hwrites hends _ ih =>
      rw [scanFrom_writes hwrites, scanFrom_ends hends, flush_reverse hne, ih]
      rfl

end Scan

section Relined

def Unbroken : Bool → List Char → Prop
  | _, [] => True
  | quoted, c :: text =>
      (quoted = true → c ≠ '\n' ∧ c ≠ '\r') ∧ Unbroken (if c = '|' then !quoted else quoted) text

theorem unbroken_append {quoted : Bool} {word : List Char}
    (h : ∀ c ∈ word, c ≠ '|' ∧ (quoted = true → c ≠ '\n' ∧ c ≠ '\r')) {text : List Char}
    (htext : Unbroken quoted text) : Unbroken quoted (word ++ text) := by
  induction word with
  | nil => exact htext
  | cons c word ih =>
      obtain ⟨⟨hbar, hbreak⟩, hword⟩ := List.forall_mem_cons.mp h
      refine ⟨hbreak, ?_⟩
      rw [if_neg hbar]
      exact ih hword

-- Quotation marks come in pairs within one atom, so that outside the atoms none is open.
theorem unbroken_layout {tokens : List Token} {text : List Char} (h : Layout tokens text) :
    Unbroken false text := by
  induction h with
  | nil => trivial
  | blank hc _ ih =>
      refine ⟨by simp, ?_⟩
      rwa [if_neg (not_special_of_isBlank hc).1]
  | opening _ ih => exact ⟨by simp, ih⟩
  | closing _ ih => exact ⟨by simp, ih⟩
  | atom hne hwrites _ _ ih =>
      cases hwrites with
      | plain h => exact unbroken_append (fun c hc => ⟨(h c hc).1, by simp⟩) ih
      | quoted h =>
          rw [List.cons_append, List.append_assoc]
          refine ⟨by simp, unbroken_append (fun c hc => ⟨(h c hc).1, fun _ => (h c hc).2⟩) ?_⟩
          exact ⟨by simp, ih⟩

-- Outside of bars the end of a line is a blank like any other.
theorem scanFrom_relined {text kept : List Char} (h : Text.Relined text kept) {quoted : Bool}
    (hunbroken : Unbroken quoted text) (atom : List Char) :
    scanFrom quoted atom kept = scanFrom quoted atom text := by
  have hfeed : Text.isBlank '\n' = true := by decide
  have hreturn : Text.isBlank '\r' = true := by decide
  induction h generalizing quoted atom with
  | nil => rfl
  | last =>
      cases quoted with
      | true => exact absurd rfl (hunbroken.1 rfl).1
      | false => rw [scanFrom_blank hfeed]; simp [scanFrom, flush]
  | skip _ ih =>
      cases quoted with
      | true => exact absurd rfl (hunbroken.1 rfl).2
      | false =>
          have hrest : Unbroken false ('\n' :: _) := hunbroken.2
          rw [ih hrest, scanFrom_blank hreturn, scanFrom_blank hfeed, scanFrom_blank hfeed]
          rfl
  | keep c _ ih =>
      obtain ⟨-, hrest⟩ := hunbroken
      by_cases hbar : c = '|'
      · rw [if_pos hbar] at hrest
        simp only [scanFrom, if_pos hbar, ih hrest]
      · rw [if_neg hbar] at hrest
        simp only [scanFrom, if_neg hbar, ih hrest]

theorem scan_lines {tokens : List Token} {text : List Char} (h : Layout tokens text) :
    scan (['\n'].intercalate (Text.lines text)) = tokens :=
  (scanFrom_relined (Text.relined_linesFrom [] text) (unbroken_layout h) []).trans (scan_layout h)

end Relined

section Spaced

def isPlain : Token → Bool
  | .atom word => word ≠ "" && word.toList.all fun c => c ≠ '|' && !isDelimiter c
  | _ => true

-- A token after a blank. The atoms in `barred` stand between bars.
def spaced (barred : List String) : Token → List Char
  | .opening => [' ', '(']
  | .closing => [' ', ')']
  | .atom word => ' ' :: if word ∈ barred then '|' :: (word.toList ++ ['|']) else word.toList

theorem writes_of_isPlain {word : String} (h : isPlain (.atom word) = true) :
    word ≠ "" ∧ Writes word word.toList ∧ Writes word ('|' :: (word.toList ++ ['|'])) := by
  simp only [isPlain, Bool.and_eq_true, decide_eq_true_eq, List.all_eq_true, Bool.not_eq_true'] at h
  refine ⟨h.1, .plain h.2, .quoted fun c hc => ⟨(h.2 c hc).1, ?_, ?_⟩⟩
  · rintro rfl
    cases (h.2 _ hc).2
  · rintro rfl
    cases (h.2 _ hc).2

-- Tokens can be laid out whatever they are, as long as their atoms can be written.
theorem layout_spaced (barred : List String) {tokens : List Token}
    (h : ∀ token ∈ tokens, token.isPlain = true) : Layout tokens (tokens.flatMap (spaced barred)) := by
  induction tokens with
  | nil => exact .nil
  | cons token tokens ih =>
      obtain ⟨htoken, htokens⟩ := List.forall_mem_cons.mp h
      have hblank : Text.isBlank ' ' = true := by decide
      rw [List.flatMap_cons]
      cases token with
      | opening => exact .blank hblank (.opening (ih htokens))
      | closing => exact .blank hblank (.closing (ih htokens))
      | atom word =>
          have hends : Ends (tokens.flatMap (spaced barred)) := by
            cases tokens with
            | nil => simp [Ends]
            | cons next _ =>
                cases next <;> simp [Ends, spaced, isDelimiter, hblank]
          obtain ⟨hne, hplain, hquoted⟩ := writes_of_isPlain htoken
          refine .blank hblank ?_
          split
          · exact .atom hne hquoted hends (ih htokens)
          · exact .atom hne hplain hends (ih htokens)

end Spaced

end Qualify.Token

namespace Qualify.Reply

-- What a solver prints: blank lines, a line with the status, and then some tokens.
def Prints (status : String) (tokens : List Token) (output : String) : Prop :=
  ∃ lead trail body, output.toList = lead ++ (status.toList ++ trail ++ '\n' :: body) ∧
    Text.AllBlank lead ∧ Text.AllBlank trail ∧ '\n' ∉ trail ∧ Token.Layout tokens body

theorem Prints.lines {status : String} {tokens : List Token} {output : String}
    (h : Prints status tokens output) (hne : status ≠ "")
    (hstatus : status.toList.all (fun c => !Text.isBlank c) = true) :
    ∃ line rest, (Text.lines output.toList).dropWhile (fun line => (Text.trim line).isEmpty) =
        line :: rest ∧ String.ofList (Text.trim line) = status ∧
      Token.scan (['\n'].intercalate rest) = tokens := by
  obtain ⟨lead, trail, body, houtput, hlead, htrail, hbreak, hlayout⟩ := h
  have hword : status.toList ≠ [] := fun hnil => hne (String.toList_inj.mp hnil)
  have hstart : Text.AllBlank [] := by simp [Text.AllBlank]
  obtain ⟨line, hlines, htrim⟩ :=
    Text.dropWhile_linesFrom hword (by simpa using hstatus) htrail hbreak hlead hstart body
  refine ⟨line, Text.lines body, houtput ▸ hlines, ?_, Token.scan_lines hlayout⟩
  rw [htrim, String.ofList_toList]

theorem parse_sat {tokens : List Token} {output : String} (h : Prints "sat" tokens output) :
    parse output = (readModel tokens).map .sat := by
  obtain ⟨line, rest, hlines, hstatus, htokens⟩ := h.lines (by decide) (by decide)
  simp only [parse, hlines, List.headD_cons, hstatus, List.drop_one, List.tail_cons, htokens]

theorem parse_unsat {tokens : List Token} {output : String} (h : Prints "unsat" tokens output) :
    parse output = .ok (.unsat (readCore tokens)) := by
  obtain ⟨line, rest, hlines, hstatus, htokens⟩ := h.lines (by decide) (by decide)
  simp only [parse, hlines, List.headD_cons, hstatus, List.drop_one, List.tail_cons, htokens]

end Qualify.Reply
