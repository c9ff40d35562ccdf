import Qualify.Proofs.Cnf.Explaining
import Qualify.Proofs.Inference.External
import Qualify.Proofs.Script.Commands
import Qualify.Proofs.Text.Numeral

namespace Qualify

namespace Reply

-- Names between parentheses after the status, laid out in any way. What follows the list does
-- not matter.
def PrintsCore (names : List String) (output : String) : Prop :=
  ∃ rest, Prints "unsat" (.opening :: names.map .atom ++ .closing :: rest) output

-- A list that starts with `error` is a message of the solver and not a core.
theorem readCore_names (names : List String) (rest : List Token) :
    readCore (.opening :: names.map .atom ++ .closing :: rest) =
      if names.head? = some "error" then [] else names := by
  cases names with
  | nil => rfl
  | cons name names =>
      by_cases herror : name = "error"
      · subst herror
        rfl
      · have htake : ((name :: names).map Token.atom ++ .closing :: rest).takeWhile (· != .closing) =
            (name :: names).map Token.atom := by
          rw [List.takeWhile_append_of_pos (by simp)]
          simp
        rw [if_neg (by simpa using herror), List.cons_append, List.map_cons, List.cons_append,
          readCore, ← List.cons_append, ← List.map_cons, htake]
        · simp [List.filterMap_map, Function.comp_def, atom?]
        · simpa using herror

theorem parse_core {names : List String} {output : String} (h : PrintsCore names output) :
    parse output = .ok (.unsat (if names.head? = some "error" then [] else names)) := by
  obtain ⟨rest, hprints⟩ := h
  rw [parse_unsat hprints, readCore_names]

end Reply

namespace Origin

variable {origins : List Origin}

theorem mem_positions {i : Nat} :
    i ∈ origins.filterMap (·.position?) ↔ .constraint i ∈ origins := by
  rw [List.mem_filterMap]
  constructor
  · rintro ⟨origin, horigin, heq⟩
    cases origin with
    | constraint position =>
        cases heq
        exact horigin
    | wellFormedness id => cases heq
  · exact fun h => ⟨_, h, rfl⟩

theorem any_isNone :
    origins.any (·.position?.isNone) = true ↔ ∃ id, .wellFormedness id ∈ origins := by
  rw [List.any_eq_true]
  constructor
  · rintro ⟨origin, horigin, hnone⟩
    cases origin with
    | constraint position => cases hnone
    | wellFormedness id => exact ⟨id, horigin⟩
  · rintro ⟨id, hid⟩
    exact ⟨_, hid, rfl⟩

end Origin

namespace Explanation

-- An explanation by exactly the constraints of some assertions, in their given order and each of
-- them once.
structure Lists (explanation : Explanation) (constraints : List Constraint)
    (origins : List Origin) : Prop where
  positions : ∃ ascending : List Nat, ascending.Pairwise (· < ·) ∧
    (∀ i, i ∈ ascending ↔ .constraint i ∈ origins) ∧
    explanation.constraints.map some = ascending.map (constraints[·]?)
  wellFormedness : explanation.wellFormedness = true ↔ ∃ id, .wellFormedness id ∈ origins

def ascending (constraints : List Constraint) (positions : List Nat) : List Nat :=
  (List.range constraints.length).filter positions.contains

theorem mem_ascending {constraints : List Constraint} {positions : List Nat} {i : Nat} :
    i ∈ ascending constraints positions ↔ i < constraints.length ∧ i ∈ positions := by
  rw [ascending, List.mem_filter, List.mem_range, List.contains_iff_mem]

theorem map_some_select (constraints : List Constraint) (positions : List Nat) :
    (select constraints positions).map some =
      (ascending constraints positions).map (constraints[·]?) := by
  have hfilter : ascending constraints positions =
      (constraints.zipIdx.filter fun entry => positions.contains entry.2).map Prod.snd := by
    rw [ascending, List.range_eq_range', ← List.zipIdx_map_snd, List.filter_map]
    rfl
  rw [hfilter, select, List.map_map, List.map_map]
  refine List.map_congr_left fun entry hentry => ?_
  exact (List.mem_zipIdx_iff_getElem?.mp (List.mem_of_mem_filter hentry)).symm

end Explanation

namespace Constraint

def kindNames : List String :=
  ["AlwaysTrue", "AlwaysFalse", "Comparable", "Equality", "Inequality", "Subtype", "Combine",
    "Arithmetic", "Preference", "Existential", "Implication"]

theorem kindName_mem (c : Constraint) : c.kindName ∈ kindNames := by
  cases c with
  | relation kind => cases kind <;> simp [kindName, kindNames, Relation.name]
  | function kind => cases kind <;> simp [kindName, kindNames]
  | _ => simp [kindName, kindNames]

end Constraint

namespace Script

section Names

variable {registry : Registry} {constraints : List Constraint}

-- What an assertion of a script says, and the name it has for that.
inductive Means (registry : Registry) (constraints : List Constraint) : Assertion → Prop
  | slot {id : SlotId} (h : id ∈ registry.variableSlots) :
      Means registry constraints
        ⟨"WellFormedness" ++ id.text, .wellFormedness id, .range id registry.lattice.size⟩
  | constraint {i : Nat} {c : Constraint} {t : Term} (hget : constraints[i]? = some c)
      (hterm : c.term registry = .ok t) :
      Means registry constraints ⟨c.kindName ++ toString i, .constraint i, t.simplify⟩

theorem Means.name_eq {a : Assertion} (h : Means registry constraints a) :
    ∃ (stem : String) (n : Nat), a.name = stem ++ toString n := by
  cases h with
  | slot _ => exact ⟨_, _, rfl⟩
  | constraint _ _ => exact ⟨_, _, rfl⟩

theorem Means.name_ne_error {a : Assertion} (h : Means registry constraints a) :
    a.name ≠ "error" := by
  obtain ⟨stem, n, hname⟩ := h.name_eq
  obtain ⟨hne, hdigits⟩ := Text.isNumeral_toDigits n
  obtain ⟨c, hc⟩ := List.exists_mem_of_ne_nil _ hne
  have hmem : c ∈ a.name.toList := by
    rw [hname, String.toList_append, Text.toList_toString]
    exact List.mem_append_right _ hc
  have herror : "error".toList.all (fun c => !c.isDigit) = true := by decide
  intro heq
  rw [heq] at hmem
  have hnot := List.all_eq_true.mp herror c hmem
  rw [List.all_eq_true.mp hdigits c hc] at hnot
  cases hnot

theorem Means.lt_length {a : Assertion} (h : Means registry constraints a) {i : Nat}
    (horigin : a.origin = .constraint i) : i < constraints.length := by
  cases h with
  | slot _ => cases horigin
  | constraint hget _ =>
      cases horigin
      exact (List.getElem?_eq_some_iff.mp hget).1

theorem stem_isDigit {stem : String} (h : stem ∈ "WellFormedness" :: Constraint.kindNames) :
    stem.toList.all (fun c => !c.isDigit) = true := by
  revert stem
  decide

def assertion? (registry : Registry) (entry : Constraint × Nat) : Option Assertion :=
  (entry.1.term registry).toOption.map fun t =>
    ⟨entry.1.kindName ++ toString entry.2, .constraint entry.2, t.simplify⟩

theorem name_assertion? {entry : Constraint × Nat} {a : Assertion}
    (h : assertion? registry entry = some a) : a.name = entry.1.kindName ++ toString entry.2 := by
  obtain ⟨t, -, rfl⟩ := Option.map_eq_some_iff.mp h
  rfl

-- Assertions can be left out, but the others keep their places.
theorem hardFrom_sublist {start : Nat} {hard : List Assertion}
    (h : hardFrom registry start constraints = .ok hard) :
    hard.Sublist ((constraints.zipIdx start).filterMap (assertion? registry)) := by
  induction constraints generalizing start hard with
  | nil =>
      cases h
      exact List.nil_sublist _
  | cons c rest ih =>
      have hskip : ((rest.zipIdx (start + 1)).filterMap (assertion? registry)).Sublist
          (((c :: rest).zipIdx start).filterMap (assertion? registry)) :=
        (List.sublist_cons_self _ _).filterMap _
      rw [hardFrom] at h
      split at h
      · exact (ih h).trans hskip
      · obtain ⟨t, ht, h⟩ := Except.bind_eq_ok.mp h
        split at h
        · exact (ih h).trans hskip
        · cases h
        · obtain ⟨others, hothers, h⟩ := Except.bind_eq_ok.mp h
          cases h
          have hfirst : assertion? registry (c, start) =
              some ⟨c.kindName ++ toString start, .constraint start, t.simplify⟩ := by
            rw [assertion?, ht]
            rfl
          rw [List.zipIdx_cons, List.filterMap_cons_some hfirst]
          exact (ih hothers).cons_cons _

-- Numbers tell the assertions of one kind apart, and words tell slots from constraints.
theorem pairwise_names (hwf : registry.WellFormed) :
    (ranges registry ++ constraints.zipIdx.filterMap (assertion? registry)).Pairwise
      fun a b => a.name ≠ b.name := by
  have hslot := stem_isDigit List.mem_cons_self
  have hkind := fun c : Constraint => stem_isDigit (List.mem_cons_of_mem _ c.kindName_mem)
  refine List.pairwise_append.mpr ⟨?_, ?_, ?_⟩
  · refine List.pairwise_map.mpr (hwf.pairwise_variableSlots.imp fun hlt heq => ?_)
    have hnumber := (Text.append_toString_inj hslot hslot heq).2
    exact Nat.ne_of_lt hlt (Nat.succ.inj hnumber)
  · have hpositions : constraints.zipIdx.Pairwise fun a b => a.2 ≠ b.2 := by
      rw [← List.pairwise_map, List.zipIdx_map_snd]
      exact List.nodup_range'
    refine List.pairwise_filterMap.mpr (hpositions.imp fun hne a ha b hb heq => hne ?_)
    rw [name_assertion? ha, name_assertion? hb] at heq
    exact (Text.append_toString_inj (hkind _) (hkind _) heq).2
  · intro a ha b hb heq
    obtain ⟨id, -, rfl⟩ := List.mem_map.mp ha
    obtain ⟨entry, -, hentry⟩ := List.mem_filterMap.mp hb
    rw [name_assertion? hentry] at heq
    have hstem := (Text.append_toString_inj hslot (hkind _) heq).1
    have hnone : "WellFormedness" ∉ Constraint.kindNames := by decide
    exact hnone (hstem ▸ entry.1.kindName_mem)

theorem of_mem_hardFrom {hard : List Assertion} (h : hardFrom registry 0 constraints = .ok hard)
    {a : Assertion} (ha : a ∈ hard) :
    ∃ i c t, constraints[i]? = some c ∧ c.term registry = .ok t ∧
      a = ⟨c.kindName ++ toString i, .constraint i, t.simplify⟩ := by
  obtain ⟨⟨c, i⟩, hentry, hassertion⟩ := List.mem_filterMap.mp ((hardFrom_sublist h).subset ha)
  obtain ⟨t, ht, rfl⟩ := Option.map_eq_some_iff.mp hassertion
  exact ⟨i, c, t, List.mem_zipIdx_iff_getElem?.mp hentry, Except.toOption_eq_some.mp ht, rfl⟩

theorem means_of_mem {hard : List Assertion} (h : hardFrom registry 0 constraints = .ok hard)
    {a : Assertion} (ha : a ∈ ranges registry ++ hard) : Means registry constraints a := by
  rcases List.mem_append.mp ha with hmem | hmem
  · obtain ⟨id, hid, rfl⟩ := List.mem_map.mp hmem
    exact .slot hid
  · obtain ⟨i, c, t, hget, ht, rfl⟩ := of_mem_hardFrom h hmem
    exact .constraint hget ht

theorem Means.isPlain_name {a : Assertion} (h : Means registry constraints a) :
    Token.isPlain (.atom a.name) = true := by
  have hstems : ∀ stem ∈ "WellFormedness" :: Constraint.kindNames,
      stem.toList.all (fun c => c ≠ '|' && !Token.isDelimiter c) = true := by decide
  cases h with
  | slot _ => exact Token.isPlain_numbered (hstems _ List.mem_cons_self) _
  | constraint _ _ =>
      exact Token.isPlain_numbered (hstems _ (List.mem_cons_of_mem _ (Constraint.kindName_mem _))) _

-- The assertions of a script, which all have a name of their own, also in its text.
structure Names (script : Script) (registry : Registry) (constraints : List Constraint)
    (assertions : List Assertion) : Prop where
  reads : (read script.text).map (·.filterMap Sexp.named?) =
    some (assertions.map fun a => (a.name, a.term.sexp))
  hard_eq : script.hard = assertions.length
  names_eq : script.names = assertions.map fun a => (a.name, a.origin)
  means : ∀ a ∈ assertions, Means registry constraints a
  nodup : (assertions.map (·.name)).Nodup

theorem exists_names (hwf : registry.WellFormed) {script : Script}
    (h : ofConstraints registry constraints .explain = .ok script) :
    ∃ assertions, script.Names registry constraints assertions := by
  obtain ⟨hard, hhard, h⟩ := Except.bind_eq_ok.mp h
  cases h
  have hmeans : ∀ a ∈ ranges registry ++ hard, Means registry constraints a :=
    fun a => means_of_mem hhard
  refine ⟨ranges registry ++ hard, ?_, rfl, rfl, hmeans, ?_⟩
  · dsimp only
    rw [read_lines .explain _ _ _ (fun a ha => (hmeans a ha).isPlain_name) _, Option.map_some,
      named?_commands]
  · exact List.pairwise_map.mpr
      ((pairwise_names hwf).sublist ((List.Sublist.refl _).append (hardFrom_sublist hhard)))

end Names

section Explained

variable {registry : Registry} {constraints : List Constraint} {script : Script}
  {assertions : List Assertion}

theorem Names.origins_eq (h : script.Names registry constraints assertions)
    {chosen : List Assertion} (hchosen : chosen ⊆ assertions) :
    script.origins (chosen.map (·.name)) = .ok (chosen.map (·.origin)) := by
  induction chosen with
  | nil => rfl
  | cons a chosen ih =>
      obtain ⟨ha, hrest⟩ := List.cons_subset.mp hchosen
      have hlookup : script.names.lookup a.name = some a.origin := by
        refine lookup_of_nodup ?_ ?_
        · rw [h.names_eq, List.map_map]
          exact h.nodup
        · rw [h.names_eq]
          exact List.mem_map_of_mem ha
      rw [List.map_cons, origins, hlookup]
      exact Except.bind_of_ok (ih hrest)

theorem Names.lookup_eq_none_iff (h : script.Names registry constraints assertions)
    {name : String} : script.names.lookup name = none ↔ name ∉ assertions.map (·.name) := by
  rw [List.lookup_eq_none_iff, h.names_eq, List.forall_mem_map]
  constructor
  · intro hnone hmem
    obtain ⟨a, ha, rfl⟩ := List.mem_map.mp hmem
    simpa using hnone a ha
  · intro hunknown a ha
    refine bne_iff_ne.mpr fun heq => hunknown ?_
    exact heq ▸ List.mem_map_of_mem ha

theorem origins_of_unknown {names : List String} {name : String} (hname : name ∈ names)
    (hunknown : script.names.lookup name = none) :
    ∃ unknown ∈ names, script.names.lookup unknown = none ∧
      script.origins names = .error (.malformedOutput (.unknownAssertion unknown)) := by
  induction names with
  | nil => cases hname
  | cons first rest ih =>
      rw [origins]
      cases hfirst : script.names.lookup first with
      | none => exact ⟨first, List.mem_cons_self, hfirst, rfl⟩
      | some origin =>
          rcases List.mem_cons.mp hname with rfl | hrest
          · cases hunknown.symm.trans hfirst
          · obtain ⟨unknown, hmem, hnone, herror⟩ := ih hrest
            exact ⟨unknown, List.mem_cons_of_mem _ hmem, hnone, Except.bind_of_error herror⟩

theorem explanation_lists {names : List String} {origins : List Origin}
    (horigins : script.origins names = .ok origins)
    (hpositions : ∀ i, .constraint i ∈ origins → i < constraints.length) :
    ∃ explanation, script.explanation constraints names = .ok explanation ∧
      explanation.Lists constraints origins := by
  refine ⟨_, Except.bind_of_ok horigins, ⟨Explanation.ascending constraints _,
    List.pairwise_lt_range.filter _, fun i => ?_, Explanation.map_some_select constraints _⟩,
    Origin.any_isNone⟩
  rw [Explanation.mem_ascending, Origin.mem_positions]
  exact and_iff_right_of_imp (hpositions i)

theorem explanation_nil : script.explanation constraints [] = .ok ⟨[], false⟩ := by
  have hselect : Explanation.select constraints [] = [] := by simp [Explanation.select]
  exact congrArg (fun selected => Except.ok (Explanation.mk selected false)) hselect

theorem explain_of_run {settings : Settings} {host : Host} {names : List String}
    (h : (script.run settings host).1 = .ok (.unsat names)) :
    (script.explain constraints settings host).1 = script.explanation constraints names := by
  unfold explain
  rcases hrun : script.run settings host with ⟨result, after⟩
  rw [hrun] at h
  cases h
  rfl

theorem explain_of_core {settings : Settings} {host : Host}
    (hwritable : ∀ path, settings.scriptPath = some path → host.canWrite path = true)
    (hlimit : ∃ argument,
      Duration.argument? settings.timeoutFlag settings.timeout = .ok argument)
    (hstart : host.canStart settings.command = true) {names : List String}
    (hprints : Reply.PrintsCore names (Text.Utf8.decode (host.outputs.headD .silent).stdout)) :
    (script.explain constraints settings host).1 =
      script.explanation constraints (if names.head? = some "error" then [] else names) :=
  explain_of_run (run_eq_ok_iff.mpr ⟨hwritable, hlimit, hstart, Reply.parse_core hprints⟩)

-- Names of assertions that are printed as a conflict lead back to their constraints. Any other
-- name is refused, except that a list that starts with `error` is a message and names nothing.
theorem explain_printed (hreachable : registry.Reachable)
    (hscript : ofConstraints registry constraints .explain = .ok script) :
    ∃ assertions, script.Names registry constraints assertions ∧
      ∀ (settings : Settings) (host : Host),
        (∀ path, settings.scriptPath = some path → host.canWrite path = true) →
        (∃ argument, Duration.argument? settings.timeoutFlag settings.timeout = .ok argument) →
        host.canStart settings.command = true →
        ∀ names : List String,
          Reply.PrintsCore names (Text.Utf8.decode (host.outputs.headD .silent).stdout) →
          (∀ chosen ⊆ assertions, names = chosen.map (·.name) →
            ∃ explanation, (script.explain constraints settings host).1 = .ok explanation ∧
              explanation.Lists constraints (chosen.map (·.origin))) ∧
          (names.head? ≠ some "error" → ∀ name ∈ names, name ∉ assertions.map (·.name) →
            ∃ unknown ∈ names, unknown ∉ assertions.map (·.name) ∧
              (script.explain constraints settings host).1 =
                .error (.malformedOutput (.unknownAssertion unknown))) ∧
          (names.head? = some "error" →
            (script.explain constraints settings host).1 = .ok ⟨[], false⟩) := by
  obtain ⟨assertions, hnames⟩ := exists_names hreachable.wellFormed hscript
  refine ⟨assertions, hnames, fun settings host hwritable hlimit hstart names hprints => ?_⟩
  rw [explain_of_core hwritable hlimit hstart hprints]
  refine ⟨?_, fun herror name hname hunknown => ?_, fun herror => ?_⟩
  · rintro chosen hchosen rfl
    have herror : (chosen.map (·.name)).head? ≠ some "error" := by
      intro hhead
      obtain ⟨a, ha, heq⟩ := List.mem_map.mp (List.mem_of_mem_head? hhead)
      exact (hnames.means a (hchosen ha)).name_ne_error heq
    rw [if_neg herror]
    refine explanation_lists (hnames.origins_eq hchosen) fun i hi => ?_
    obtain ⟨a, ha, horigin⟩ := List.mem_map.mp hi
    exact (hnames.means a (hchosen ha)).lt_length horigin
  · rw [if_neg herror]
    obtain ⟨unknown, hmem, hnone, horigins⟩ :=
      origins_of_unknown hname (hnames.lookup_eq_none_iff.mpr hunknown)
    exact ⟨unknown, hmem, hnames.lookup_eq_none_iff.mp hnone, Except.bind_of_error horigins⟩
  · rw [if_pos herror, explanation_nil]

end Explained

section Sample

open Registry

def coreText (names : List String) : List Char :=
  let tokens : List Token := .opening :: names.map .atom ++ [.closing]
  "unsat".toList ++ '\n' :: tokens.flatMap (Token.spaced [])

theorem coreText_prints {names : List String}
    (h : ∀ name ∈ names, (Token.atom name).isPlain = true) :
    Reply.PrintsCore names (String.ofList (coreText names)) := by
  refine ⟨[], [], [], _, String.toList_ofList, by simp [Text.AllBlank], by simp [Text.AllBlank],
    by simp, Token.layout_spaced [] ?_⟩
  intro token htoken
  simp only [List.cons_append, List.mem_cons, List.mem_append, List.mem_map, List.not_mem_nil,
    or_false] at htoken
  rcases htoken with rfl | ⟨name, hname, rfl⟩ | rfl
  · rfl
  · exact h name hname
  · rfl

def coreHost (names : List String) : Host where
  canStart _ := true
  canWrite _ := false
  clock := []
  outputs := [⟨(coreText names).map fun c => c.toNat.toUInt8, [], 0⟩]
  files := []
  runs := []

theorem coreHost_prints {names : List String}
    (hplain : ∀ name ∈ names, (Token.atom name).isPlain = true)
    (hdecode : Text.Utf8.decodeFrom 0 ((coreText names).map fun c => c.toNat.toUInt8) =
      coreText names) :
    Reply.PrintsCore names
      (Text.Utf8.decode ((coreHost names).outputs.headD .silent).stdout) := by
  have hstdout : Text.Utf8.decode ((coreHost names).outputs.headD .silent).stdout =
      String.ofList (coreText names) := congrArg String.ofList hdecode
  rw [hstdout]
  exact coreText_prints hplain

theorem taintFlow_names :
    ∃ script, ofConstraints taint Cnf.taintFlow .explain = .ok script ∧ script.names =
      [("WellFormedness3", .wellFormedness sourceSlot), ("WellFormedness4", .wellFormedness sinkSlot),
        ("Subtype0", .constraint 0), ("Existential1", .constraint 1)] :=
  ⟨_, rfl, rfl⟩

theorem taintFlow_explain_printed :
    ∃ script explanation, ofConstraints taint Cnf.taintFlow .explain = .ok script ∧
      script.names.map Prod.fst =
        ["WellFormedness3", "WellFormedness4", "Subtype0", "Existential1"] ∧
      (script.explain Cnf.taintFlow Solver.externalSettings
        (coreHost ["Existential1", "WellFormedness4", "Subtype0", "Existential1"])).1 =
          .ok explanation ∧
      explanation.Lists Cnf.taintFlow
        [.constraint 1, .wellFormedness sinkSlot, .constraint 0, .constraint 1] := by
  obtain ⟨script, hscript, hentries⟩ := taintFlow_names
  obtain ⟨assertions, hnames, hexplain⟩ := explain_printed taint_reachable hscript
  have hmem : ∀ entry ∈ script.names, ∃ a ∈ assertions, (a.name, a.origin) = entry := by
    rw [hnames.names_eq]
    exact fun entry => List.mem_map.mp
  rw [hentries] at hmem
  simp only [List.forall_mem_cons, Prod.mk.injEq] at hmem
  obtain ⟨-, ⟨slot, hslot, hslotName, hslotOrigin⟩, ⟨flow, hflow, hflowName, hflowOrigin⟩,
    ⟨rule, hrule, hruleName, hruleOrigin⟩, -⟩ := hmem
  obtain ⟨hchosen, -⟩ := hexplain Solver.externalSettings
    (coreHost ["Existential1", "WellFormedness4", "Subtype0", "Existential1"])
    (fun _ hpath => by cases hpath) ⟨none, rfl⟩ rfl _ (coreHost_prints (by decide) (by decide))
  obtain ⟨explanation, hok, hlists⟩ := hchosen [rule, slot, flow, rule]
    (by simp [hrule, hslot, hflow]) (by simp [hslotName, hflowName, hruleName])
  simp only [List.map_cons, List.map_nil, hslotOrigin, hflowOrigin, hruleOrigin] at hlists
  exact ⟨script, explanation, hscript, by rw [hentries]; rfl, hok, hlists⟩

-- Two names are printed of which one is unknown, and nothing is wrong.
theorem taintFlow_error_explained :
    ∃ script, ofConstraints taint Cnf.taintFlow .explain = .ok script ∧
      "error" ∉ script.names.map Prod.fst ∧
      Reply.PrintsCore ["error", "Subtype0"]
        (Text.Utf8.decode ((coreHost ["error", "Subtype0"]).outputs.headD .silent).stdout) ∧
      (script.explain Cnf.taintFlow Solver.externalSettings (coreHost ["error", "Subtype0"])).1 =
        .ok ⟨[], false⟩ := by
  obtain ⟨script, hscript, hentries⟩ := taintFlow_names
  have hprints := @coreHost_prints ["error", "Subtype0"] (by decide) (by decide)
  have hwritable : ∀ path, Solver.externalSettings.scriptPath = some path →
      (coreHost ["error", "Subtype0"]).canWrite path = true := fun _ hpath => by cases hpath
  refine ⟨script, hscript, ?_, hprints,
    (explain_of_core hwritable ⟨none, rfl⟩ rfl hprints).trans explanation_nil⟩
  rw [hentries]
  decide

end Sample

end Script

end Qualify
