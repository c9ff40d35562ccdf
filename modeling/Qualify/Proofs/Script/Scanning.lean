import Qualify.Proofs.Script.Decoding

namespace Qualify.Reply

-- The integer that the tokens of a value stand for. A numeral has to fit in 64 bits, also the one
-- after a minus.
inductive Denotes : List Token → Int → Prop
  | numeral {text : String} {value : Int64} (h : Text.Spells text.toList value.toInt) :
      Denotes [.atom text] value.toInt
  | negated {text : String} {value : Int64} (h : Text.Spells text.toList value.toInt) :
      Denotes [.opening, .atom "-", .atom text, .closing] (-value.toInt)

-- An integer as it is held, in 64 bits. One number that can be written has no word: the negative of
-- the least one.
def word (number : Int) : Except Fault Int64 :=
  if number = 0x8000000000000000 then .error .overflow else .ok (Int64.ofInt number)

def held (entry : String × Int) : String × Int64 :=
  (entry.1, Int64.ofInt entry.2)

theorem Denotes.bounds {written : List Token} {number : Int} (h : Denotes written number) :
    -0x8000000000000000 ≤ number ∧ number ≤ 0x8000000000000000 := by
  cases h with
  | @numeral text value h =>
      have hlow := value.le_toInt
      have hhigh := value.toInt_lt
      omega
  | @negated text value h =>
      have hlow := value.le_toInt
      have hhigh := value.toInt_lt
      omega

theorem Denotes.toInt_ofInt {written : List Token} {number : Int} (h : Denotes written number)
    (hne : number ≠ 0x8000000000000000) : (Int64.ofInt number).toInt = number := by
  obtain ⟨hlow, hhigh⟩ := h.bounds
  exact Int64.toInt_ofInt_of_le hlow (by omega)

theorem Denotes.ne_nil {written : List Token} {number : Int} (h : Denotes written number) :
    written ≠ [] := by
  cases h <;> simp

theorem word_toInt (value : Int64) : word value.toInt = .ok value := by
  have hlt := value.toInt_lt
  rw [word, if_neg (by omega), Int64.ofInt_toInt]

theorem word_neg_toInt (value : Int64) : word (-value.toInt) = negate value := by
  have hleast : value = Int64.minValue ↔ -value.toInt = 0x8000000000000000 := by
    rw [← Int64.toInt_inj, Int64.toInt_minValue]
    omega
  simp only [word, negate, hleast, Int64.ofInt_neg, Int64.ofInt_toInt]

-- The word is computed after the number has been recognized, so that an overflow still tells what
-- is left to read.
theorem readValue_eq_some_iff {tokens rest : List Token} {value : Except Fault Int64} :
    readValue tokens = some (value, rest) ↔
      ∃ written number, tokens = written ++ rest ∧ Denotes written number ∧
        value = word number := by
  constructor
  · intro h
    unfold readValue at h
    split at h
    · obtain ⟨n, hn, heq⟩ := Option.map_eq_some_iff.mp h
      cases heq
      exact ⟨_, _, rfl, .numeral (Text.readInt64_eq_some_iff.mp hn), (word_toInt n).symm⟩
    · split at h
      · next hminus =>
          obtain ⟨n, hn, heq⟩ := Option.map_eq_some_iff.mp h
          cases heq
          subst hminus
          exact ⟨_, _, rfl, .negated (Text.readInt64_eq_some_iff.mp hn), (word_neg_toInt n).symm⟩
      · cases h
    · cases h
  · rintro ⟨written, number, rfl, hdenotes, rfl⟩
    cases hdenotes with
    | @numeral text value h =>
        simp [readValue, Text.readInt64_eq_some_iff.mpr h, word_toInt]
    | @negated text value h =>
        simp [readValue, Text.readInt64_eq_some_iff.mpr h, word_neg_toInt]

def heading (name sort : String) : List Token :=
  [.atom "define-fun", .atom name, .opening, .closing, .atom sort]

theorem heading_length (name sort : String) : (heading name sort).length = 5 := rfl

-- One move through the tokens of a model: the entry that it finds, if any, and what is left.
inductive Moves : List Token → List (String × Int) → List Token → Prop
  | skip {token : Token} {rest : List Token} (h : token ≠ .atom "define-fun") :
      Moves (token :: rest) [] rest
  | other {name sort : String} {rest : List Token} (h : sort ≠ "Int") :
      Moves (heading name sort ++ rest) [] rest
  | integer {name : String} {written rest : List Token} {number : Int}
      (h : Denotes written number) (hword : number ≠ 0x8000000000000000) :
      Moves (heading name "Int" ++ (written ++ rest)) [(name, number)] rest

-- Tokens from which there is no move, and what is wrong with them.
inductive Stuck : List Token → ReplyError → Prop
  | definition {rest : List Token}
      (h : ∀ name sort body, .atom "define-fun" :: rest ≠ heading name sort ++ body) :
      Stuck (.atom "define-fun" :: rest) (.malformed .definition)
  | value {name : String} {body : List Token}
      (h : ∀ written number rest, Denotes written number → body ≠ written ++ rest) :
      Stuck (heading name "Int" ++ body) (.malformed (.value name))
  | overflow {name : String} {written rest : List Token}
      (h : Denotes written 0x8000000000000000) :
      Stuck (heading name "Int" ++ (written ++ rest)) (.fault .overflow)

theorem Stuck.ne_nil {tokens : List Token} {e : ReplyError} (h : Stuck tokens e) : tokens ≠ [] := by
  cases h <;> simp [heading]

theorem Stuck.eq_overflow {tokens : List Token} {cause : Fault} (h : Stuck tokens (.fault cause)) :
    cause = .overflow := by
  cases h
  rfl

inductive Scans : List Token → List (String × Int) → List Token → Prop
  | refl (tokens : List Token) : Scans tokens [] tokens
  | step {tokens next rest : List Token} {entries others : List (String × Int)}
      (h : Moves tokens entries next) (hrest : Scans next others rest) :
      Scans tokens (entries ++ others) rest

-- The questions in the order the scan asks them: a definition, its heading, its sort, its value,
-- and whether the value fits.
theorem moves_cases (tokens : List Token) :
    tokens = [] ∨ (∃ entries next, Moves tokens entries next) ∨ ∃ e, Stuck tokens e := by
  cases tokens with
  | nil => exact .inl rfl
  | cons token rest =>
      refine .inr ?_
      by_cases htoken : token = .atom "define-fun"
      · subst htoken
        by_cases hheading : ∃ name sort body,
            .atom "define-fun" :: rest = heading name sort ++ body
        · obtain ⟨name, sort, body, hbody⟩ := hheading
          rw [hbody]
          by_cases hsort : sort = "Int"
          · subst hsort
            by_cases hvalue : ∃ written number rest, Denotes written number ∧ body = written ++ rest
            · obtain ⟨written, number, rest, hdenotes, rfl⟩ := hvalue
              by_cases hword : number = 0x8000000000000000
              · exact .inr ⟨_, .overflow (hword ▸ hdenotes)⟩
              · exact .inl ⟨_, _, .integer hdenotes hword⟩
            · refine .inr ⟨_, .value fun written number rest hdenotes heq => ?_⟩
              exact hvalue ⟨written, number, rest, hdenotes, heq⟩
          · exact .inl ⟨_, _, .other hsort⟩
        · refine .inr ⟨_, .definition fun name sort body heq => ?_⟩
          exact hheading ⟨name, sort, body, heq⟩
      · exact .inl ⟨_, _, .skip htoken⟩

theorem readModel_moves {tokens next : List Token} {entries : List (String × Int)}
    (h : Moves tokens entries next) :
    readModel tokens = (readModel next).map (entries.map held ++ ·) := by
  cases h with
  | skip h =>
      rw [readModel_skip h]
      exact (congrFun Except.map_id _).symm
  | other h =>
      simp only [heading, List.cons_append, List.nil_append]
      rw [readModel, if_neg h]
      exact (congrFun Except.map_id _).symm
  | @integer name written rest number h hword =>
      refine readModel_integer (readValue_eq_some_iff.mpr ⟨_, _, rfl, h, ?_⟩)
      rw [word, if_neg hword]

theorem readModel_scans {tokens rest : List Token} {entries : List (String × Int)}
    (h : Scans tokens entries rest) :
    readModel tokens = (readModel rest).map (entries.map held ++ ·) := by
  induction h with
  | refl tokens => exact (congrFun Except.map_id _).symm
  | step h _ ih =>
      rw [readModel_moves h, ih]
      cases readModel _ with
      | error e => rfl
      | ok values => simp [Except.map]

-- In each case the reader gets as far as the scan does and gives the error of that place.
theorem readModel_stuck {tokens : List Token} {e : ReplyError} (h : Stuck tokens e) :
    readModel tokens = .error e := by
  cases h with
  | definition h =>
      rw [readModel]
      rintro name sort body rfl
      exact h name sort body rfl
  | value h =>
      simp only [heading, List.cons_append, List.nil_append]
      rw [readModel, if_pos rfl]
      split
      · next value others hvalue =>
          obtain ⟨written, number, heq, hdenotes, -⟩ := readValue_eq_some_iff.mp hvalue
          exact absurd heq (h written number others hdenotes)
      · rfl
  | @overflow name written rest h =>
      have hvalue : readValue (written ++ rest) = some (.error .overflow, rest) :=
        readValue_eq_some_iff.mpr ⟨_, _, rfl, h, rfl⟩
      simp only [heading, List.cons_append, List.nil_append]
      rw [readModel, if_pos rfl]
      split
      · next value others hfound =>
          cases hvalue.symm.trans hfound
          rfl
      · next hnone => cases hvalue.symm.trans hnone

theorem Moves.length_lt {tokens next : List Token} {entries : List (String × Int)}
    (h : Moves tokens entries next) : next.length < tokens.length := by
  cases h with
  | skip => simp
  | other =>
      rw [List.length_append, heading_length]
      omega
  | integer =>
      rw [List.length_append, List.length_append, heading_length]
      omega

-- Every list of tokens is scanned to its end or to a place where there is no move.
theorem exists_scans (tokens : List Token) :
    ∃ entries rest, Scans tokens entries rest ∧ (rest = [] ∨ ∃ e, Stuck rest e) := by
  rcases moves_cases tokens with hnil | ⟨entries, next, hmoves⟩ | hstuck
  · exact ⟨[], tokens, .refl tokens, .inl hnil⟩
  · have hshorter := hmoves.length_lt
    obtain ⟨others, rest, hscans, hend⟩ := exists_scans next
    exact ⟨entries ++ others, rest, .step hmoves hscans, hend⟩
  · exact ⟨[], tokens, .refl tokens, .inr hstuck⟩
termination_by tokens.length

theorem Scans.denotes {tokens rest : List Token} {entries : List (String × Int)}
    (h : Scans tokens entries rest) : ∀ entry ∈ entries,
      entry.2 ≠ 0x8000000000000000 ∧ ∃ written, Denotes written entry.2 := by
  induction h with
  | refl tokens => simp
  | step h _ ih =>
      refine List.forall_mem_append.mpr ⟨?_, ih⟩
      cases h with
      | skip => simp
      | other => simp
      | integer h hword => exact List.forall_mem_singleton.mpr ⟨hword, _, h⟩

-- The words stand for the numbers that are written.
theorem Scans.numbers_held {tokens rest : List Token} {entries : List (String × Int)}
    (h : Scans tokens entries rest) : numbers (entries.map held) = entries := by
  rw [numbers, List.map_map]
  refine (List.map_congr_left fun entry hentry => ?_).trans (List.map_id entries)
  obtain ⟨hword, written, hdenotes⟩ := h.denotes entry hentry
  exact Prod.ext rfl (hdenotes.toInt_ofInt hword)

theorem held_numbers (values : List (String × Int64)) : (numbers values).map held = values := by
  rw [numbers, List.map_map]
  refine (List.map_congr_left fun entry _ => ?_).trans (List.map_id values)
  exact Prod.ext rfl (Int64.ofInt_toInt entry.2)

-- What is read from a model are the numbers on the way through all its tokens.
theorem readModel_eq_ok_iff {tokens : List Token} {values : List (String × Int64)} :
    readModel tokens = .ok values ↔ Scans tokens (numbers values) [] := by
  constructor
  · intro h
    obtain ⟨entries, rest, hscans, rfl | ⟨e, hstuck⟩⟩ := exists_scans tokens
    · rw [readModel_scans hscans, readModel] at h
      have hvalues : values = entries.map held := by simpa [Except.map] using h.symm
      rwa [hvalues, hscans.numbers_held]
    · rw [readModel_scans hscans, readModel_stuck hstuck] at h
      cases h
  · intro h
    rw [readModel_scans h, readModel, held_numbers]
    simp [Except.map]

theorem readModel_eq_error_iff {tokens : List Token} {e : ReplyError} :
    readModel tokens = .error e ↔ ∃ entries rest, Scans tokens entries rest ∧ Stuck rest e := by
  constructor
  · intro h
    obtain ⟨entries, rest, hscans, rfl | ⟨e', hstuck⟩⟩ := exists_scans tokens
    · rw [readModel_scans hscans, readModel] at h
      cases h
    · rw [readModel_scans hscans, readModel_stuck hstuck] at h
      cases h
      exact ⟨entries, rest, hscans, hstuck⟩
  · rintro ⟨entries, rest, hscans, hstuck⟩
    rw [readModel_scans hscans, readModel_stuck hstuck]
    rfl

end Qualify.Reply
