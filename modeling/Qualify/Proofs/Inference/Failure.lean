import Qualify.Inference.Solver
import Qualify.Proofs.Term.Meaning

-- How the steps of an inference can fail.
namespace Qualify

-- Neither a call at the wrong time nor a stop in the middle of the work.
def SolverError.isOrdinary : SolverError → Bool
  | fault _ => false
  | invalidState _ => false
  | _ => true

def SolverError.isFault : SolverError → Bool
  | fault _ => true
  | _ => false

def breaksOff {α : Type} : Except SolverError α → Bool
  | .error e => e.isFault
  | .ok _ => false

-- What fails, if it does, in an ordinary way, or breaks off for a reason.
def OrdinaryUnless {α : Type} (reason : Prop) (answer : Except SolverError α) : Prop :=
  ∀ e, answer = .error e → e.isOrdinary = true ∨ reason ∧ ∃ cause, e = .fault cause

section Ordinary

variable {α β : Type} {reason other : Prop}

@[simp] theorem ordinaryUnless_ok (a : α) : OrdinaryUnless reason (.ok a) := by
  intro e h
  cases h

theorem ordinaryUnless_error {e : SolverError} :
    OrdinaryUnless reason (.error e : Except SolverError α) ↔
      e.isOrdinary = true ∨ reason ∧ ∃ cause, e = .fault cause := by
  constructor
  · exact fun h => h e rfl
  · intro he e' h
    cases h
    exact he

theorem ordinaryUnless_of_isOrdinary {e : SolverError} (he : e.isOrdinary = true) :
    OrdinaryUnless reason (.error e : Except SolverError α) :=
  ordinaryUnless_error.mpr (.inl he)

theorem ordinaryUnless_fault (h : reason) (cause : Fault) :
    OrdinaryUnless reason (.error (.fault cause) : Except SolverError α) :=
  ordinaryUnless_error.mpr (.inr ⟨h, cause, rfl⟩)

theorem OrdinaryUnless.mono {x : Except SolverError α} (hx : OrdinaryUnless reason x)
    (h : reason → other) : OrdinaryUnless other x :=
  fun e he => (hx e he).imp_right fun ⟨hreason, hcause⟩ => ⟨h hreason, hcause⟩

theorem OrdinaryUnless.bind {x : Except SolverError α} {f : α → Except SolverError β}
    (hx : OrdinaryUnless reason x) (hf : ∀ a, OrdinaryUnless reason (f a)) :
    OrdinaryUnless reason (x >>= f) := by
  cases x with
  | error e => exact ordinaryUnless_error.mpr (ordinaryUnless_error.mp hx)
  | ok a => exact hf a

theorem OrdinaryUnless.map {x : Except SolverError α} (hx : OrdinaryUnless reason x) (f : α → β) :
    OrdinaryUnless reason (x.map f) := by
  cases x with
  | error e => exact ordinaryUnless_error.mpr (ordinaryUnless_error.mp hx)
  | ok a => exact ordinaryUnless_ok (f a)

-- Only an error that says so is a stop in the middle of the work.
theorem ordinaryUnless_ofInconsistency (x : Except Inconsistency α) :
    OrdinaryUnless (∃ cause, x = .error (.fault cause))
      (x.mapError SolverError.ofInconsistency) := by
  cases x with
  | ok a => exact ordinaryUnless_ok a
  | error e =>
      cases e with
      | fault cause => exact ordinaryUnless_fault ⟨cause, rfl⟩ cause
      | _ => exact ordinaryUnless_of_isOrdinary rfl

theorem isFault_ofInconsistency {e : Inconsistency} :
    (SolverError.ofInconsistency e).isFault = true ↔ ∃ cause, e = .fault cause := by
  cases e <;> simp [SolverError.ofInconsistency, SolverError.isFault]

theorem OrdinaryUnless.ne_invalidState {x : Except SolverError α} (hx : OrdinaryUnless reason x)
    (state : SolverState) : x ≠ .error (.invalidState state) := by
  rintro rfl
  rcases ordinaryUnless_error.mp hx with h | ⟨-, cause, h⟩
  · cases h
  · cases h

theorem breaksOff_iff {x : Except SolverError α} :
    breaksOff x = true ↔ ∃ cause, x = .error (.fault cause) := by
  constructor
  · intro h
    cases x with
    | ok a => cases h
    | error e =>
        cases e with
        | fault cause => exact ⟨cause, rfl⟩
        | _ => cases h
  · rintro ⟨cause, rfl⟩
    rfl

theorem OrdinaryUnless.of_breaksOff {x : Except SolverError α} (hx : OrdinaryUnless reason x)
    (h : breaksOff x = true) : reason := by
  obtain ⟨cause, rfl⟩ := breaksOff_iff.mp h
  rcases ordinaryUnless_error.mp hx with h | ⟨h, -⟩
  · cases h
  · exact h

end Ordinary

namespace Cnf

structure Enclosed (cnf : Cnf) : Prop where
  isWithin : cnf.problem.isWithin = true
  rows : ∀ id ∈ cnf.slots, id.index * cnf.size + cnf.size ≤ cnf.count

variable (cnf : Cnf)

theorem decodeFrom_ne_fault {slots : List SlotId} (valuation : Valuation)
    (hrows : ∀ id ∈ slots, id.index * cnf.size + cnf.size ≤ cnf.count) (solution : Solution)
    (cause : Fault) : cnf.decodeFrom valuation solution slots ≠ .error (.fault cause) := by
  induction slots generalizing solution with
  | nil => exact fun h => by cases h
  | cons id rest ih =>
      obtain ⟨hrow, hrows⟩ := List.forall_mem_cons.mp hrows
      rw [decodeFrom, if_neg (Nat.not_lt.mpr hrow)]
      split
      · exact ih hrows _
      · exact fun h => by cases h

theorem solve_ordinary (sat : Sat.Procedure) :
    OrdinaryUnless (¬cnf.Enclosed) (cnf.solve sat) := by
  unfold solve
  split
  · next hwithin =>
      split
      · refine (OrdinaryUnless.mono (ordinaryUnless_ofInconsistency _) ?_).map some
        rintro ⟨cause, hcause⟩ henclosed
        exact cnf.decodeFrom_ne_fault _ henclosed.rows _ cause hcause
      · exact ordinaryUnless_ok none
      · exact ordinaryUnless_of_isOrdinary rfl
  · next hwithin => exact ordinaryUnless_fault (fun henclosed => hwithin henclosed.isWithin) _

-- Explaining looks at the hard clauses only.
theorem explain_ordinary (sat : Sat.Procedure) (constraints : List Constraint) :
    OrdinaryUnless (¬cnf.Enclosed) (cnf.explain sat constraints) := by
  unfold explain
  split
  · split
    · exact ordinaryUnless_ok _
    · exact ordinaryUnless_of_isOrdinary rfl
    · exact ordinaryUnless_of_isOrdinary rfl
  · next hwithin =>
      refine ordinaryUnless_fault (fun henclosed => hwithin ?_) _
      have hproblem := henclosed.isWithin
      rw [Sat.Problem.isWithin, Bool.and_eq_true] at hproblem
      exact hproblem.1

end Cnf

section Written

variable {registry : Registry}

theorem Script.hardFrom_ne_fault (constraints : List Constraint) (position : Nat) (cause : Fault) :
    hardFrom registry position constraints ≠ .error (.fault cause) := by
  induction constraints generalizing position with
  | nil => exact fun h => by cases h
  | cons c rest ih =>
      intro h
      rw [hardFrom] at h
      split at h
      · exact ih _ h
      · rcases Except.bind_eq_error.mp h with h | ⟨term, -, h⟩
        · exact c.term_ne_fault cause h
        · split at h
          · exact ih _ h
          · cases h
          · exact ih _ (Except.bind_return_eq_error.mp h)

theorem Script.ofConstraints_ne_fault (constraints : List Constraint) (mode : ScriptMode)
    (cause : Fault) : ofConstraints registry constraints mode ≠ .error (.fault cause) :=
  fun h => hardFrom_ne_fault constraints 0 cause (Except.bind_return_eq_error.mp h)

end Written

namespace Host

structure Precedes (host after : Host) : Prop where
  clock : after.clock ⊆ host.clock
  outputs : after.outputs ⊆ host.outputs

theorem Precedes.refl (host : Host) : host.Precedes host :=
  ⟨fun _ h => h, fun _ h => h⟩

theorem Precedes.trans {first second third : Host} (h : first.Precedes second)
    (h' : second.Precedes third) : first.Precedes third :=
  ⟨fun _ hnow => h.clock (h'.clock hnow), fun _ houtput => h.outputs (h'.outputs houtput)⟩

theorem write_eq (host : Host) (path text : String) :
    ∃ files, host.write path text = { host with files := files } := by
  unfold write
  split
  · exact ⟨_, rfl⟩
  · exact ⟨host.files, rfl⟩

-- Writing changes the files only.
theorem writeTo_eq (host : Host) (path : Option String) (text : String) :
    ∃ files, host.writeTo path text = { host with files := files } := by
  cases path with
  | none => exact ⟨host.files, rfl⟩
  | some path => exact host.write_eq path text

theorem appendTo_eq (host : Host) (path : Option String) (text : String) :
    ∃ files, host.appendTo path text = { host with files := files } := by
  cases path with
  | none => exact ⟨host.files, rfl⟩
  | some path => exact host.write_eq path _

section Written

variable (host : Host) (path : Option String) (text : String)

@[simp] theorem canStart_writeTo : (host.writeTo path text).canStart = host.canStart := by
  obtain ⟨files, h⟩ := host.writeTo_eq path text
  rw [h]

@[simp] theorem outputs_writeTo : (host.writeTo path text).outputs = host.outputs := by
  obtain ⟨files, h⟩ := host.writeTo_eq path text
  rw [h]

@[simp] theorem runs_writeTo : (host.writeTo path text).runs = host.runs := by
  obtain ⟨files, h⟩ := host.writeTo_eq path text
  rw [h]

@[simp] theorem canStart_appendTo : (host.appendTo path text).canStart = host.canStart := by
  obtain ⟨files, h⟩ := host.appendTo_eq path text
  rw [h]

@[simp] theorem outputs_appendTo : (host.appendTo path text).outputs = host.outputs := by
  obtain ⟨files, h⟩ := host.appendTo_eq path text
  rw [h]

@[simp] theorem runs_appendTo : (host.appendTo path text).runs = host.runs := by
  obtain ⟨files, h⟩ := host.appendTo_eq path text
  rw [h]

end Written

theorem precedes_writeTo (host : Host) (path : Option String) (text : String) :
    host.Precedes (host.writeTo path text) := by
  obtain ⟨files, h⟩ := host.writeTo_eq path text
  rw [h]
  exact ⟨fun _ h => h, fun _ h => h⟩

theorem precedes_appendTo (host : Host) (path : Option String) (text : String) :
    host.Precedes (host.appendTo path text) := by
  obtain ⟨files, h⟩ := host.appendTo_eq path text
  rw [h]
  exact ⟨fun _ h => h, fun _ h => h⟩

theorem precedes_start (host : Host) (command : String) (run : Run) :
    host.Precedes (host.start command run).2 := by
  unfold start
  split
  · exact ⟨fun _ h => h, fun _ => List.mem_of_mem_tail⟩
  · exact Precedes.refl host

-- The world lets a backend answer: there is a moment when its time ends, or an argument that says
-- so, and no run prints a number that is too large.
def Serves (host : Host) (settings : Settings) : Prop :=
  match settings.backend with
  | .maxSat => ∀ now ∈ 0 :: host.clock,
      ∃ moment, Duration.deadline now settings.timeout = .ok moment
  | .smt => (∃ argument, Duration.argument? settings.timeoutFlag settings.timeout = .ok argument) ∧
      ∀ output ∈ host.outputs, ∀ cause,
        Reply.parse (Text.Utf8.decode output.stdout) ≠ .error (.fault cause)

section Serves

variable {host : Host} {settings : Settings}

theorem serves_maxSat_iff (hbackend : settings.backend = .maxSat) :
    host.Serves settings ↔ ∀ now ∈ 0 :: host.clock,
      ∃ moment, Duration.deadline now settings.timeout = .ok moment := by
  rw [Serves, hbackend]

theorem serves_smt_iff (hbackend : settings.backend = .smt) :
    host.Serves settings ↔
      (∃ argument, Duration.argument? settings.timeoutFlag settings.timeout = .ok argument) ∧
        ∀ output ∈ host.outputs, ∀ cause,
          Reply.parse (Text.Utf8.decode output.stdout) ≠ .error (.fault cause) := by
  rw [Serves, hbackend]

theorem Serves.of_precedes (h : host.Serves settings) {after : Host} (hafter : host.Precedes after) :
    after.Serves settings := by
  cases hbackend : settings.backend with
  | maxSat =>
      rw [serves_maxSat_iff hbackend] at h ⊢
      exact fun now hnow => h now (List.cons_subset_cons 0 hafter.clock hnow)
  | smt =>
      rw [serves_smt_iff hbackend] at h ⊢
      exact ⟨h.1, fun output houtput => h.2 output (hafter.outputs houtput)⟩

end Serves

end Host

namespace Script

theorem decodeFrom_ordinary (size : Nat) (solution : Solution) (values : List (String × Int64)) :
    OrdinaryUnless False (decodeFrom size solution values) := by
  induction values generalizing solution with
  | nil => exact ordinaryUnless_ok solution
  | cons entry rest ih =>
      obtain ⟨name, value⟩ := entry
      rw [decodeFrom]
      cases slotOfSymbol? name with
      | none => exact ih solution
      | some id =>
          dsimp only
          split
          · exact ih _
          · exact ordinaryUnless_of_isOrdinary rfl

theorem decode_ordinary (script : Script) (lattice : Lattice) (values : List (String × Int64)) :
    OrdinaryUnless False (script.decode lattice values) := by
  refine (decodeFrom_ordinary _ _ values).bind fun solution => ?_
  cases script.slots.find? fun id => !solution.contains id with
  | some id => exact ordinaryUnless_of_isOrdinary rfl
  | none => exact ordinaryUnless_ok solution

theorem origins_ordinary (script : Script) (names : List String) :
    OrdinaryUnless False (script.origins names) := by
  induction names with
  | nil => exact ordinaryUnless_ok []
  | cons name rest ih =>
      rw [origins]
      cases script.names.lookup name with
      | none => exact ordinaryUnless_of_isOrdinary rfl
      | some origin => exact ih.bind fun others => ordinaryUnless_ok _

theorem interpret_ordinary (command : String) (output : RunOutput) :
    OrdinaryUnless
      (∃ cause, Reply.parse (Text.Utf8.decode output.stdout) = .error (.fault cause))
      (interpret command output) := by
  unfold interpret
  split
  · exact ordinaryUnless_ok _
  · next cause hparse => exact ordinaryUnless_fault ⟨cause, hparse⟩ cause
  · exact ordinaryUnless_of_isOrdinary rfl
  · split
    · exact ordinaryUnless_of_isOrdinary rfl
    · exact ordinaryUnless_of_isOrdinary rfl

theorem start_eq_some {host after : Host} {command : String} {run : Run} {output : RunOutput}
    (h : host.start command run = (some output, after)) :
    output = host.outputs.headD .silent := by
  unfold Host.start at h
  split at h
  · cases h
    rfl
  · cases h

theorem parse_headD_ne_fault {outputs : List RunOutput}
    (h : ∀ output ∈ outputs, ∀ cause,
      Reply.parse (Text.Utf8.decode output.stdout) ≠ .error (.fault cause)) (cause : Fault) :
    Reply.parse (Text.Utf8.decode (outputs.headD .silent).stdout) ≠ .error (.fault cause) := by
  cases outputs with
  | nil => exact fun hsilent => by cases hsilent
  | cons output rest => exact h output List.mem_cons_self cause

variable (script : Script) {settings : Settings} (hbackend : settings.backend = .smt) (host : Host)
include hbackend

-- A run can break off at the time argument and in reading the reply; the host serves the settings
-- exactly if neither happens.
theorem run_ordinary : OrdinaryUnless (¬host.Serves settings) (script.run settings host).1 := by
  rw [Host.serves_smt_iff hbackend]
  unfold run
  split
  · exact ordinaryUnless_of_isOrdinary rfl
  · dsimp only
    split
    · next cause hargument =>
        refine ordinaryUnless_fault ?_ cause
        rintro ⟨⟨argument, hok⟩, -⟩
        cases hargument.symm.trans hok
    · split
      · exact ordinaryUnless_of_isOrdinary rfl
      · next output after hstart =>
          dsimp only
          refine OrdinaryUnless.mono (interpret_ordinary settings.command output) ?_
          rintro ⟨cause, hparse⟩ ⟨-, houtputs⟩
          rw [start_eq_some hstart, Host.outputs_appendTo, Host.outputs_writeTo] at hparse
          exact parse_headD_ne_fault houtputs cause hparse

theorem solve_ordinary (lattice : Lattice) :
    OrdinaryUnless (¬host.Serves settings) (script.solve lattice settings host).1 := by
  have hrun := script.run_ordinary hbackend host
  unfold solve
  split
  · exact ((script.decode_ordinary lattice _).map some).mono False.elim
  · exact ordinaryUnless_ok none
  · next heq =>
      rw [heq] at hrun
      exact ordinaryUnless_error.mpr (ordinaryUnless_error.mp hrun)

theorem explain_ordinary (constraints : List Constraint) :
    OrdinaryUnless (¬host.Serves settings) (script.explain constraints settings host).1 := by
  have hrun := script.run_ordinary hbackend host
  unfold explain
  split
  · exact ordinaryUnless_of_isOrdinary rfl
  · exact ((script.origins_ordinary _).bind fun origins => ordinaryUnless_ok _).mono False.elim
  · next heq =>
      rw [heq] at hrun
      exact ordinaryUnless_error.mpr (ordinaryUnless_error.mp hrun)

omit hbackend in
-- Each exit of the run is reached after a longer piece of one chain: write, append, start.
theorem precedes_run : host.Precedes (script.run settings host).2 := by
  unfold run
  split
  · exact .refl host
  · have hlogged := (host.precedes_writeTo settings.scriptPath script.text).trans
      (Host.precedes_appendTo _ settings.scriptLogPath (script.text ++ "\n"))
    dsimp only
    split
    · exact hlogged
    · next argument hargument =>
        have hstart := Host.precedes_start ((host.writeTo settings.scriptPath script.text).appendTo
          settings.scriptLogPath (script.text ++ "\n")) settings.command
            ⟨argument.toList, script.text⟩
        split
        · next heq => rw [heq] at hstart; exact hlogged.trans hstart
        · next heq => rw [heq] at hstart; exact hlogged.trans hstart

end Script

theorem Solver.verify_ordinary (solver : Solver) (solution : Solution) :
    OrdinaryUnless False (solver.verify solution) := by
  unfold verify
  split
  · split
    · exact ordinaryUnless_of_isOrdinary rfl
    · exact ordinaryUnless_of_isOrdinary rfl
    · exact ordinaryUnless_ok _
  · exact ordinaryUnless_ok _

-- A backend that has a deadline looks at the clock once.
theorem Solver.timed_ordinary {α : Type} {solver : Solver} {reason : Prop}
    {work : Except SolverError α} (hbackend : solver.settings.backend = .maxSat) (host : Host)
    (hwork : OrdinaryUnless reason work) :
    OrdinaryUnless (¬host.Serves solver.settings ∨ reason) (solver.timed host work).1 := by
  rw [Host.serves_maxSat_iff hbackend]
  unfold timed
  dsimp only
  split
  · next cause hdeadline =>
      refine ordinaryUnless_fault (.inl fun hserves => ?_) cause
      obtain ⟨moment, hok⟩ := hserves host.now.1 (by
        unfold Host.now
        cases host.clock <;> simp)
      cases hdeadline.symm.trans hok
  · exact hwork.mono .inr

theorem Solver.precedes_timed {α : Type} (solver : Solver) (host : Host)
    (work : Except SolverError α) : host.Precedes (solver.timed host work).2 := by
  have hnow : host.Precedes host.now.2 := ⟨fun _ => List.mem_of_mem_tail, fun _ h => h⟩
  unfold timed
  dsimp only
  split
  · exact hnow
  · exact hnow

end Qualify
