import Qualify.Proofs.Constraint.Normalization
import Qualify.Proofs.Inference.Lifecycle

namespace Qualify

namespace Script

def slotValue? (entry : String × Int64) : Option (SlotId × Qualifier) :=
  (slotOfSymbol? entry.1).map fun id => (id, entry.2.toInt.toNat)

def InRange (size : Nat) (values : List (String × Int64)) : Prop :=
  ∀ entry ∈ values, (slotOfSymbol? entry.1).isSome → 0 ≤ entry.2.toInt ∧ entry.2.toInt < size

instance (size : Nat) (values : List (String × Int64)) : Decidable (InRange size values) :=
  inferInstanceAs (Decidable (∀ entry ∈ values, (slotOfSymbol? entry.1).isSome → _ ∧ _))

-- Values of symbols that name no slot are skipped, whatever they are.
theorem decodeFrom_eq_ok_iff {size : Nat} {solution result : Solution}
    {values : List (String × Int64)} :
    decodeFrom size solution values = .ok result ↔ InRange size values ∧
      result = (values.filterMap slotValue?).foldl (fun s pair => s.insert pair.1 pair.2)
        solution := by
  induction values generalizing solution with
  | nil =>
      constructor
      · intro h
        cases h
        exact ⟨by simp [InRange], rfl⟩
      · rintro ⟨-, rfl⟩
        rfl
  | cons entry rest ih =>
      obtain ⟨name, value⟩ := entry
      rw [decodeFrom, InRange, List.forall_mem_cons, ← InRange]
      cases hslot : slotOfSymbol? name with
      | none => simp [slotValue?, hslot, ih]
      | some id =>
          by_cases hrange : 0 ≤ value.toInt ∧ value.toInt < size
          · simp [slotValue?, hslot, hrange, ih]
          · have hfails : (decide (0 ≤ value.toInt) && decide (value.toInt < size)) = false := by
              simpa using hrange
            simp [hfails, hrange]

-- Two checks: every slot value is a qualifier, and every slot of the script was given one.
theorem decode_eq_ok_iff {script : Script} {lattice : Lattice} {values : List (String × Int64)}
    {solution : Solution} :
    script.decode lattice values = .ok solution ↔
      InRange lattice.size values ∧ solution = .ofList (values.filterMap slotValue?) ∧
        ∀ id ∈ script.slots, solution.contains id = true := by
  rw [decode, Except.bind_eq_ok]
  constructor
  · rintro ⟨decoded, hdecoded, h⟩
    obtain ⟨hrange, hlist⟩ := decodeFrom_eq_ok_iff.mp hdecoded
    cases hfind : script.slots.find? fun id => !decoded.contains id with
    | some id =>
        rw [hfind] at h
        cases h
    | none =>
        rw [hfind] at h
        cases h
        exact ⟨hrange, hlist, by simpa using hfind⟩
  · rintro ⟨hrange, rfl, hslots⟩
    refine ⟨.ofList (values.filterMap slotValue?), decodeFrom_eq_ok_iff.mpr ⟨hrange, rfl⟩, ?_⟩
    rw [List.find?_eq_none.mpr (by simpa using hslots)]
    rfl

theorem contains_iff_total {registry : Registry} {values : List (String × Int64)}
    (hrange : InRange registry.lattice.size values) :
    (∀ id ∈ registry.variableSlots,
        (Solution.ofList (values.filterMap slotValue?)).contains id = true) ↔
      (Solution.ofList (values.filterMap slotValue?)).Total registry := by
  refine forall₂_congr fun id _ => ?_
  rw [Solution.contains, Option.isSome_iff_exists]
  refine exists_congr fun q => (and_iff_left_of_imp fun hget => ?_).symm
  obtain ⟨entry, hentry, hvalue⟩ := List.mem_filterMap.mp (Solution.mem_of_get?_ofList hget)
  obtain ⟨id', hid', heq⟩ := Option.map_eq_some_iff.mp hvalue
  cases heq
  obtain ⟨hnonneg, hlt⟩ := hrange entry hentry (by simp [hid'])
  exact (Int.toNat_lt hnonneg).mpr hlt

theorem interpret_eq_ok_iff {command : String} {output : RunOutput} {reply : Reply} :
    interpret command output = .ok reply ↔
      Reply.parse (Text.Utf8.decode output.stdout) = .ok reply := by
  unfold interpret
  split
  · simp_all
  · simp_all
  · simp_all
  · split <;> simp_all

-- A run needs a place for its script, a time limit that can be handed over and a command that can
-- be started, and then it is up to the text that is printed.
theorem run_eq_ok_iff {script : Script} {settings : Settings} {host : Host} {reply : Reply} :
    (script.run settings host).1 = .ok reply ↔
      (∀ path, settings.scriptPath = some path → host.canWrite path = true) ∧
        (∃ argument, Duration.argument? settings.timeoutFlag settings.timeout = .ok argument) ∧
        host.canStart settings.command = true ∧
        Reply.parse (Text.Utf8.decode (host.outputs.headD .silent).stdout) = .ok reply := by
  unfold run
  cases hfilter : settings.scriptPath.filter fun path => !host.canWrite path with
  | some path =>
      obtain ⟨hpath, hunwritable⟩ := Option.filter_eq_some_iff.mp hfilter
      constructor
      · intro h
        cases h
      · rintro ⟨hwritable, -⟩
        rw [hwritable path hpath] at hunwritable
        cases hunwritable
  | none =>
      have hwritable : ∀ path, settings.scriptPath = some path → host.canWrite path = true := by
        simpa [Option.filter_eq_none_iff] using hfilter
      rw [and_iff_right hwritable]
      simp only [Host.start, Host.canStart_appendTo, Host.canStart_writeTo,
        Host.outputs_appendTo, Host.outputs_writeTo]
      cases Duration.argument? settings.timeoutFlag settings.timeout with
      | error cause => simp
      | ok argument =>
          by_cases hstart : host.canStart settings.command = true
          · simp [hstart, interpret_eq_ok_iff]
          · simp [hstart]

theorem solve_eq_some_iff {script : Script} {lattice : Lattice} {settings : Settings}
    {host : Host} {solution : Solution} :
    (script.solve lattice settings host).1 = .ok (some solution) ↔
      ∃ values, (script.run settings host).1 = .ok (.sat values) ∧
        script.decode lattice values = .ok solution := by
  unfold solve
  rcases script.run settings host with ⟨result, after⟩
  cases result with
  | error e => simp
  | ok reply =>
      cases reply with
      | sat values => simp [Except.map_eq_ok]
      | unsat names => simp

theorem slots_ofConstraints {registry : Registry} {constraints : List Constraint}
    {mode : ScriptMode} {script : Script}
    (h : ofConstraints registry constraints mode = .ok script) :
    script.slots = registry.variableSlots := by
  obtain ⟨hard, -, h⟩ := Except.bind_eq_ok.mp h
  cases h
  rfl

end Script

namespace Solver

theorem verify_eq_some_iff {solver : Solver} (hverifying : solver.settings.verifying = true)
    {found solution : Solution} :
    solver.verify found = .ok (some solution) ↔ solution = found ∧
      ∀ c ∈ solver.constraints, found.holds solver.registry c = .ok true := by
  rw [verify, if_pos hverifying, ← Solution.firstViolation_eq_none_iff]
  cases found.firstViolation solver.registry solver.constraints with
  | error e => simp
  | ok violation => cases violation <;> simp [eq_comm]

theorem conclude_eq_some_iff {asking : Solver} {answer : Except SolverError (Option Solution)}
    {host : Host} {solution : Solution} :
    (asking.conclude answer host).1 = .ok (some solution) ↔
      ∃ found, answer = .ok (some found) ∧ asking.verify found = .ok (some solution) := by
  cases answer with
  | error e => simp [conclude]
  | ok result =>
      cases result with
      | none => simp [conclude]
      | some found => simp [conclude, (settle_sameTask asking _).verify_eq]

section External

variable {solver : Solver} (hbackend : solver.settings.backend = .smt) (sat : Sat.Procedure)
  (host : Host)
include hbackend

theorem solve_of_script_error {e : Inconsistency}
    (hscript : Script.ofConstraints solver.registry solver.constraints
      (if solver.settings.optimizing then .optimize else .satisfy) = .error e) :
    (solver.solve sat host).1 = .error (.ofInconsistency e) := by
  unfold solve serialize
  simp only [hbackend, hscript]
  rfl

-- Only the script, the registry and the settings enter the answer, and entering a state leaves
-- these alone.
theorem solve_of_script {script : Script}
    (hscript : Script.ofConstraints solver.registry solver.constraints
      (if solver.settings.optimizing then .optimize else .satisfy) = .ok script)
    (solution : Solution) :
    (solver.solve sat host).1 = .ok (some solution) ↔
      ∃ found, (script.solve solver.registry.lattice solver.settings host).1 = .ok (some found) ∧
        solver.verify found = .ok (some solution) := by
  have hserialize : ∃ after, { solver with unsatisfiable := false }.serialize
      (if solver.settings.optimizing then .optimize else .satisfy) host =
        (.ok (.script script), after, host) ∧ after.SameTask solver := by
    unfold serialize
    simp only [hbackend, hscript]
    exact ⟨_, rfl, rfl, rfl, rfl⟩
  obtain ⟨after, hserialize, hsame⟩ := hserialize
  have hasking := hsame.enter .solving
  rw [solver.solve_eq_conclude sat host hserialize, conclude_eq_some_iff, ask,
    hasking.registry_eq, hasking.settings_eq]
  simp only [hasking.verify_eq]

-- Whatever an external solver prints, a solution that is given out was read from it and has been
-- checked: it has a qualifier of the lattice for every variable, and all constraints hold.
theorem solve_external_iff (hverifying : solver.settings.verifying = true) (solution : Solution) :
    (solver.solve sat host).1 = .ok (some solution) ↔
      (∃ script, Script.ofConstraints solver.registry solver.constraints
        (if solver.settings.optimizing then .optimize else .satisfy) = .ok script) ∧
      (∀ path, solver.settings.scriptPath = some path → host.canWrite path = true) ∧
      (∃ argument, Duration.argument? solver.settings.timeoutFlag solver.settings.timeout =
        .ok argument) ∧
      host.canStart solver.settings.command = true ∧
      ∃ values,
        Reply.parse (Text.Utf8.decode (host.outputs.headD .silent).stdout) = .ok (.sat values) ∧
        Script.InRange solver.registry.lattice.size values ∧
        solution = .ofList (values.filterMap Script.slotValue?) ∧
        solution.Total solver.registry ∧
        ∀ c ∈ solver.constraints, solution.holds solver.registry c = .ok true := by
  cases hscript : Script.ofConstraints solver.registry solver.constraints
      (if solver.settings.optimizing then .optimize else .satisfy) with
  | error e => simp [solve_of_script_error hbackend sat host hscript]
  | ok script =>
      have hslots := Script.slots_ofConstraints hscript
      rw [solve_of_script hbackend sat host hscript]
      simp only [Script.solve_eq_some_iff, Script.run_eq_ok_iff, Script.decode_eq_ok_iff, hslots,
        verify_eq_some_iff hverifying]
      constructor
      · rintro ⟨found, ⟨values, ⟨hwritable, hlimit, hstart, hparse⟩, hrange, rfl, hall⟩, rfl, hholds⟩
        exact ⟨⟨script, rfl⟩, hwritable, hlimit, hstart, values, hparse, hrange, rfl,
          (Script.contains_iff_total hrange).mp hall, hholds⟩
      · rintro ⟨-, hwritable, hlimit, hstart, values, hparse, hrange, rfl, htotal, hholds⟩
        exact ⟨_, ⟨values, ⟨hwritable, hlimit, hstart, hparse⟩, hrange, rfl,
          (Script.contains_iff_total hrange).mpr htotal⟩, rfl, hholds⟩

end External

section Sample

open Registry

def externalSettings : Settings :=
  { Settings.standard with backend := .smt }

def printed : String :=
  "sat\n(define-fun slot4 () Int 1)(define-fun slot3 () Int 0)(define-fun slot4 () Int 0)"

def printingHost : Host where
  canStart _ := true
  canWrite _ := false
  clock := []
  outputs := [⟨printed.toByteArray.data.toList, [], 0⟩]
  files := []
  runs := []

def printedValues : List (String × Int64) :=
  [("slot4", 1), ("slot3", 0), ("slot4", 0)]

theorem taintFlow_solve_external_iff :
    ((new externalSettings taint Cnf.taintFlow).solve Sat.bySearch printingHost).1 =
        .ok (some Constraint.allTainted) ∧
      ∀ host solution,
        ((new externalSettings taint Cnf.taintFlow).solve Sat.bySearch host).1 =
            .ok (some solution) →
          solution.Total taint ∧ ∀ c ∈ Cnf.taintFlow, solution.holds taint c = .ok true := by
  have hexternal := fun host => @solve_external_iff (new externalSettings taint Cnf.taintFlow) rfl
    Sat.bySearch host rfl
  constructor
  · have hparse : Reply.parse (Text.Utf8.decode (printingHost.outputs.headD .silent).stdout) =
        .ok (.sat printedValues) := by
      rw [Reply.parse, Text.Utf8.decode, String.toList_ofList]
      exact Except.toOption_eq_some.mp (by decide +kernel)
    have hrange : Script.InRange taint.lattice.size printedValues := by decide
    have hread : Constraint.allTainted = .ofList (printedValues.filterMap Script.slotValue?) := by
      decide
    have htotal : Constraint.allTainted.Total taint := by
      rw [hread]
      exact (Script.contains_iff_total hrange).mp (by decide)
    have hholds : ∀ c ∈ Cnf.taintFlow, Constraint.allTainted.holds taint c = .ok true := by
      simp only [Cnf.taintFlow, List.forall_mem_cons]
      exact ⟨rfl, rfl, rfl, rfl, by simp⟩
    refine (hexternal printingHost _).mpr
      ⟨⟨_, rfl⟩, ?_, ⟨none, rfl⟩, rfl, printedValues, hparse, hrange, hread, htotal, hholds⟩
    intro path hpath
    cases hpath
  · intro host solution hsolve
    obtain ⟨-, -, -, -, -, -, -, -, htotal, hholds⟩ := (hexternal host solution).mp hsolve
    exact ⟨htotal, hholds⟩

end Sample

end Solver

end Qualify
