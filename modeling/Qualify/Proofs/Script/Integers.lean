import Qualify.Proofs.Script.Scanning

namespace Qualify.Reply

structure Scan where
  position : Nat
  values : List (String × Int64)

namespace Scan

-- The value at a position. A word that has no negative cannot be negated.
def readAt (tokens : List Token) (name : String) (i : Nat) (values : List (String × Int64)) :
    Except ReplyError Scan :=
  match tokens[i]? with
  | some (.atom text) =>
      match Text.readInt64 text.toList with
      | some value => .ok ⟨i + 1, values ++ [(name, value)]⟩
      | none => .error (.malformed (.value name))
  | some .opening =>
      match tokens[i + 1]?, tokens[i + 2]?, tokens[i + 3]? with
      | some (.atom minus), some (.atom text), some .closing =>
          if minus = "-" then
            match Text.readInt64 text.toList with
            | some value => do
                let negative ← (negate value).mapError .fault
                return ⟨i + 4, values ++ [(name, negative)]⟩
            | none => .error (.malformed (.value name))
          else .error (.malformed (.value name))
      | _, _, _ => .error (.malformed (.value name))
  | _ => .error (.malformed (.value name))

-- There is a token at the position, or the scan breaks off.
def step (tokens : List Token) (scan : Scan) : Except ReplyError Scan :=
  let i := scan.position
  match tokens[i]? with
  | none => .error (.fault .outOfRange)
  | some token =>
      if token = .atom "define-fun" then
        match tokens[i + 1]?, tokens[i + 2]?, tokens[i + 3]?, tokens[i + 4]? with
        | some (.atom name), some .opening, some .closing, some (.atom sort) =>
            if sort = "Int" then readAt tokens name (i + 5) scan.values
            else .ok ⟨i + 5, scan.values⟩
        | _, _, _, _ => .error (.malformed .definition)
      else .ok ⟨i + 1, scan.values⟩

section Step

variable {tokens : List Token} {i : Nat}

theorem getElem?_of_drop {rest : List Token} (h : tokens.drop i = rest) (k : Nat) :
    tokens[i + k]? = rest[k]? := by
  rw [← h, List.getElem?_drop]

theorem drop_of_getElem? {token : Token} (h : tokens[i]? = some token) :
    tokens.drop i = token :: tokens.drop (i + 1) := by
  obtain ⟨hlt, rfl⟩ := List.getElem?_eq_some_iff.mp h
  exact List.drop_eq_getElem_cons hlt

theorem drop_of_drop {part rest : List Token} (h : tokens.drop i = part ++ rest) :
    tokens.drop (i + part.length) = rest := by
  rw [← List.drop_drop, h, List.drop_left]

theorem add_length_le {part rest : List Token} (h : tokens.drop i = part ++ rest)
    (hne : part ≠ []) : i + part.length ≤ tokens.length := by
  have hlength := congrArg List.length h
  rw [List.length_drop, List.length_append] at hlength
  have hpos := List.length_pos_iff.mpr hne
  omega

theorem readAt_denotes {written rest : List Token} {number : Int} (h : Denotes written number)
    (hdrop : tokens.drop i = written ++ rest) (name : String) (values : List (String × Int64)) :
    readAt tokens name i values = (do
      let value ← (word number).mapError .fault
      return ⟨i + written.length, values ++ [(name, value)]⟩) := by
  have hat := getElem?_of_drop hdrop
  cases h with
  | @numeral text value h =>
      have hfirst : tokens[i]? = some (.atom text) := hat 0
      simp only [readAt, hfirst, Text.readInt64_eq_some_iff.mpr h, word_toInt]
      rfl
  | @negated text value h =>
      have hfirst : tokens[i]? = some .opening := hat 0
      simp [readAt, hfirst, hat, Text.readInt64_eq_some_iff.mpr h, word_neg_toInt]

-- The indexed reader looks at the same tokens one by one as the reader that matches on the list.
theorem readAt_failed (h : readValue (tokens.drop i) = none) (name : String)
    (values : List (String × Int64)) :
    readAt tokens name i values = .error (.malformed (.value name)) := by
  unfold readAt
  split
  · next text hfirst =>
      rw [drop_of_getElem? hfirst] at h
      simp [readValue] at h
      simp [h]
  · next hfirst =>
      split
      · next minus text hsecond hthird hfourth =>
          rw [drop_of_getElem? hfirst, drop_of_getElem? hsecond, drop_of_getElem? hthird,
            drop_of_getElem? hfourth] at h
          simp [readValue] at h
          by_cases hminus : minus = "-"
          · simp [hminus, h hminus]
          · simp [hminus]
      · rfl
  · rfl

variable {scan : Scan}

theorem step_nil (h : tokens.drop scan.position = []) :
    scan.step tokens = .error (.fault .outOfRange) := by
  have hnone : tokens[scan.position]? = none := getElem?_of_drop h 0
  simp [step, hnone]

theorem step_heading {name sort : String} {body : List Token}
    (hdrop : tokens.drop scan.position = heading name sort ++ body) :
    scan.step tokens = if sort = "Int" then readAt tokens name (scan.position + 5) scan.values
      else .ok ⟨scan.position + 5, scan.values⟩ := by
  have hat := getElem?_of_drop hdrop
  have hfirst : tokens[scan.position]? = some (.atom "define-fun") := hat 0
  simp [step, hfirst, hat, heading]

-- A position of the scan and the list that is left there say the same; each way to be stuck is
-- one exit of the step.
theorem step_stuck {e : ReplyError} (h : Stuck (tokens.drop scan.position) e) :
    scan.step tokens = .error e := by
  generalize hdrop : tokens.drop scan.position = rest at h
  cases h with
  | @definition rest h =>
      have hfirst : tokens[scan.position]? = some (.atom "define-fun") := getElem?_of_drop hdrop 0
      simp only [step, hfirst, if_true]
      split
      · next name sort hsecond hthird hfourth hfifth =>
          refine absurd ?_ (h name sort (tokens.drop (scan.position + 5)))
          rw [← hdrop, drop_of_getElem? hfirst, drop_of_getElem? hsecond, drop_of_getElem? hthird,
            drop_of_getElem? hfourth, drop_of_getElem? hfifth]
          rfl
      · rfl
  | @value name body h =>
      have hnone : readValue (tokens.drop (scan.position + 5)) = none := by
        rw [← heading_length name "Int", drop_of_drop hdrop, Option.eq_none_iff_forall_ne_some]
        rintro ⟨value, rest⟩ hvalue
        obtain ⟨written, number, heq, hdenotes, -⟩ := readValue_eq_some_iff.mp hvalue
        exact h written number rest hdenotes heq
      rw [step_heading hdrop, if_pos rfl, readAt_failed hnone]
  | @overflow name written rest h =>
      have hbody : tokens.drop (scan.position + 5) = written ++ rest := drop_of_drop hdrop
      rw [step_heading hdrop, if_pos rfl, readAt_denotes h hbody]
      rfl

-- Each move names the tokens it takes, and their number is how far the position advances.
theorem step_moves {entries : List (String × Int)} {next : List Token}
    (h : Moves (tokens.drop scan.position) entries next) :
    ∃ position, scan.position < position ∧ position ≤ tokens.length ∧
      tokens.drop position = next ∧
      scan.step tokens = .ok ⟨position, scan.values ++ entries.map held⟩ := by
  generalize hdrop : tokens.drop scan.position = rest at h
  cases h with
  | @skip token rest h =>
      have hfirst : tokens[scan.position]? = some token := getElem?_of_drop hdrop 0
      have hnext : tokens.drop (scan.position + 1) = next := @drop_of_drop _ _ [token] _ hdrop
      have hle : scan.position + 1 ≤ tokens.length := @add_length_le _ _ [token] _ hdrop (by simp)
      refine ⟨scan.position + 1, by omega, hle, hnext, ?_⟩
      simp [step, hfirst, h]
  | @other name sort rest h =>
      have hle : scan.position + 5 ≤ tokens.length := add_length_le hdrop (by simp [heading])
      refine ⟨scan.position + 5, by omega, hle, drop_of_drop hdrop, ?_⟩
      rw [step_heading hdrop, if_neg h, List.map_nil, List.append_nil]
  | @integer name written rest number h hword =>
      have hbody : tokens.drop (scan.position + 5) = written ++ next := drop_of_drop hdrop
      refine ⟨scan.position + 5 + written.length, by omega, add_length_le hbody h.ne_nil,
        drop_of_drop hbody, ?_⟩
      rw [step_heading hdrop, if_pos rfl, readAt_denotes h hbody, word, if_neg hword]
      rfl

end Step

-- A step goes forward, and not behind the end.
theorem position_of_step {tokens : List Token} {scan later : Scan}
    (h : scan.step tokens = .ok later) :
    scan.position < later.position ∧ later.position ≤ tokens.length := by
  rcases moves_cases (tokens.drop scan.position) with hnil | ⟨entries, next, hmoves⟩ | ⟨e, hstuck⟩
  · cases h.symm.trans (step_nil hnil)
  · obtain ⟨position, hlt, hle, -, hready⟩ := step_moves hmoves
    cases h.symm.trans hready
    exact ⟨hlt, hle⟩
  · cases h.symm.trans (step_stuck hstuck)

def run (tokens : List Token) (scan : Scan) : Except ReplyError (List (String × Int64)) :=
  if _hlt : scan.position < tokens.length then
    match _hstep : scan.step tokens with
    | .error e => .error e
    | .ok later => run tokens later
  else .ok scan.values
termination_by tokens.length - scan.position
decreasing_by
  have := (position_of_step _hstep).1
  omega

section Run

variable {tokens : List Token} {scan : Scan}

theorem run_of_lt (h : scan.position < tokens.length) :
    run tokens scan = scan.step tokens >>= run tokens := by
  rw [run, dif_pos h]
  split
  · next hstep => rw [hstep, Except.bind_of_error rfl]
  · next hstep => rw [Except.bind_of_ok hstep]

theorem run_scans {entries : List (String × Int)} {rest : List Token}
    (h : Scans (tokens.drop scan.position) entries rest) :
    ∃ position, tokens.drop position = rest ∧
      run tokens scan = run tokens ⟨position, scan.values ++ entries.map held⟩ := by
  generalize hdrop : tokens.drop scan.position = start at h
  induction h generalizing scan with
  | refl start => exact ⟨scan.position, hdrop, by simp⟩
  | @step start next rest entries others h _ ih =>
      subst hdrop
      obtain ⟨position, hlt, hle, hnext, hready⟩ := step_moves h
      obtain ⟨final, hfinal, hrun⟩ := @ih ⟨position, scan.values ++ entries.map held⟩ hnext
      refine ⟨final, hfinal, ?_⟩
      rw [run_of_lt (by omega), Except.bind_of_ok hready, hrun, List.map_append, List.append_assoc]

-- The scan by positions always comes to an end, and reads the same.
theorem run_eq (tokens : List Token) : run tokens ⟨0, []⟩ = readModel tokens := by
  obtain ⟨entries, rest, hscans, hend⟩ := exists_scans tokens
  obtain ⟨position, hdrop, hrun⟩ := @run_scans tokens ⟨0, []⟩ _ _ hscans
  rw [hrun, readModel_scans hscans]
  rcases hend with rfl | ⟨e, hstuck⟩
  · have hle := List.drop_eq_nil_iff.mp hdrop
    rw [run, dif_neg (by simpa using hle), readModel]
    simp [Except.map]
  · rw [readModel_stuck hstuck]
    rw [← hdrop] at hstuck
    have hlt : position < tokens.length := by simpa using hstuck.ne_nil
    rw [run_of_lt hlt, step_stuck hstuck]
    rfl

end Run

end Scan

def statusOf (output : String) : String :=
  let lines := (Text.lines output.toList).dropWhile fun line => (Text.trim line).isEmpty
  String.ofList (Text.trim (lines.headD []))

def tokensOf (output : String) : List Token :=
  let lines := (Text.lines output.toList).dropWhile fun line => (Text.trim line).isEmpty
  Token.scan (['\n'].intercalate (lines.drop 1))

theorem parse_of_sat {output : String} (h : statusOf output = "sat") :
    parse output = (readModel (tokensOf output)).map .sat := by
  unfold statusOf at h
  simp only [parse, h, tokensOf]

-- Only a model is scanned by positions and has numbers to compute.
theorem parse_of_ne_sat {output : String} (h : statusOf output ≠ "sat") :
    (∀ values, parse output ≠ .ok (.sat values)) ∧ ∀ cause, parse output ≠ .error (.fault cause) := by
  unfold parse
  dsimp only
  split
  · next hsat => exact absurd hsat h
  all_goals simp

theorem parse_eq_sat_iff {output : String} {values : List (String × Int64)} :
    parse output = .ok (.sat values) ↔
      statusOf output = "sat" ∧ Scans (tokensOf output) (numbers values) [] := by
  by_cases hsat : statusOf output = "sat"
  · rw [and_iff_right hsat, ← readModel_eq_ok_iff, parse_of_sat hsat, Except.map_eq_ok]
    simp
  · exact iff_of_false ((parse_of_ne_sat hsat).1 values) fun h => hsat h.1

theorem parse_eq_fault_iff {output : String} {cause : Fault} :
    parse output = .error (.fault cause) ↔ statusOf output = "sat" ∧
      ∃ entries rest, Scans (tokensOf output) entries rest ∧ Stuck rest (.fault cause) := by
  by_cases hsat : statusOf output = "sat"
  · rw [and_iff_right hsat, ← readModel_eq_error_iff, parse_of_sat hsat, Except.map_eq_error]
  · exact iff_of_false ((parse_of_ne_sat hsat).2 cause) fun h => hsat h.1

theorem stuck_overflow_iff {tokens : List Token} :
    Stuck tokens (.fault .overflow) ↔ ∃ name written rest,
      tokens = heading name "Int" ++ (written ++ rest) ∧ Denotes written 0x8000000000000000 := by
  constructor
  · intro h
    cases h with
    | overflow h => exact ⟨_, _, _, rfl, h⟩
  · rintro ⟨name, written, rest, rfl, h⟩
    exact .overflow h

-- The model in an output has an integer that can be written but has no word, and everything before
-- it can be read.
def Overflows (output : String) : Prop :=
  statusOf output = "sat" ∧ ∃ entries name written rest,
    Scans (tokensOf output) entries (heading name "Int" ++ (written ++ rest)) ∧
      Denotes written 0x8000000000000000

theorem parse_eq_overflow_iff {output : String} :
    parse output = .error (.fault .overflow) ↔ Overflows output := by
  rw [parse_eq_fault_iff, Overflows]
  refine and_congr_right fun _ => exists_congr fun entries => ?_
  simp only [stuck_overflow_iff]
  constructor
  · rintro ⟨_, hscans, name, written, rest, rfl, h⟩
    exact ⟨name, written, rest, hscans, h⟩
  · rintro ⟨name, written, rest, hscans, h⟩
    exact ⟨_, hscans, name, written, rest, rfl, h⟩

-- Reading a model comes to an end for every output and never looks behind the last token, since
-- each step goes forward. It finds the numbers that are written. Only the negative of the least word
-- breaks it off, since it has no word.
theorem parse_exact (output : String) :
    (statusOf output = "sat" →
        parse output = (Scan.run (tokensOf output) ⟨0, []⟩).map .sat) ∧
      (∀ scan later : Scan, scan.step (tokensOf output) = .ok later →
        scan.position < later.position ∧ later.position ≤ (tokensOf output).length) ∧
      parse output ≠ .error (.fault .outOfRange) ∧
      (parse output = .error (.fault .overflow) ↔ Overflows output) ∧
      ∀ values, parse output = .ok (.sat values) ↔
        statusOf output = "sat" ∧ Scans (tokensOf output) (numbers values) [] := by
  refine ⟨fun hsat => ?_, fun scan later => Scan.position_of_step, fun hfault => ?_,
    parse_eq_overflow_iff, fun values => parse_eq_sat_iff⟩
  · rw [Scan.run_eq, parse_of_sat hsat]
  · obtain ⟨-, entries, rest, -, hstuck⟩ := parse_eq_fault_iff.mp hfault
    cases hstuck.eq_overflow

def leastNegated : String :=
  "sat\n((define-fun slot3 () Int (- -9223372036854775808)))"

theorem leastNegated_breaks_off :
    Denotes [.opening, .atom "-", .atom "-9223372036854775808", .closing] 9223372036854775808 ∧
      tokensOf leastNegated = [.opening, .opening] ++ (heading "slot3" "Int" ++
        ([.opening, .atom "-", .atom "-9223372036854775808", .closing] ++ [.closing, .closing])) ∧
      parse leastNegated = .error (.fault .overflow) := by
  have htokens : tokensOf leastNegated = .opening :: .opening :: (heading "slot3" "Int" ++
      ([.opening, .atom "-", .atom "-9223372036854775808", .closing] ++ [.closing, .closing])) := by
    decide
  have hleast : Text.Spells "-9223372036854775808".toList Int64.minValue.toInt :=
    Text.readInt64_eq_some_iff.mp (by decide)
  refine ⟨.negated hleast, htokens, parse_eq_overflow_iff.mpr
    ⟨by decide, [], "slot3", _, [.closing, .closing], ?_, .negated hleast⟩⟩
  rw [htokens]
  exact .step (.skip (by decide)) (.step (.skip (by decide)) (.refl _))

end Qualify.Reply
