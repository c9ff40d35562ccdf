import Qualify.Proofs.Inference.Failure
import Qualify.Proofs.Inference.Verification

namespace Qualify.Solver

def overflows (solver : Solver) : Bool :=
  solver.settings.backend = .maxSat &&
    breaksOff ((Cnf.encode solver.registry solver.constraints).mapError .ofInconsistency)

def stage (solver : Solver) : SolverState :=
  if solver.overflows then .serializing else .solving

-- The clauses, if the backend wants clauses, can be made and handed to it.
structure Fits (solver : Solver) : Prop where
  overflows_eq : solver.overflows = false
  enclosed : solver.settings.backend = .maxSat → ∀ cnf,
    Cnf.encode solver.registry solver.constraints = .ok cnf → cnf.Enclosed

def Hindered (solver : Solver) (host : Host) : Prop :=
  ¬(solver.Fits ∧ host.Serves solver.settings)

def Prepares (solver : Solver) (mode : ScriptMode) : BackendInput → Prop
  | .cnf cnf => solver.settings.backend = .maxSat ∧
      Cnf.encode solver.registry solver.constraints = .ok cnf
  | .script script => solver.settings.backend = .smt ∧
      Script.ofConstraints solver.registry solver.constraints mode = .ok script

section SameTask

variable {solver other : Solver} (h : solver.SameTask other)
include h

theorem SameTask.enter (state : SolverState) : (solver.enter state).SameTask other :=
  ⟨h.settings_eq, h.registry_eq, h.constraints_eq⟩

theorem SameTask.trans {third : Solver} (h' : other.SameTask third) : solver.SameTask third :=
  ⟨h.settings_eq.trans h'.settings_eq, h.registry_eq.trans h'.registry_eq,
    h.constraints_eq.trans h'.constraints_eq⟩

theorem SameTask.overflows_eq : solver.overflows = other.overflows := by
  rw [overflows, overflows, h.settings_eq, h.registry_eq, h.constraints_eq]

theorem SameTask.fits (hfits : other.Fits) : solver.Fits where
  overflows_eq := h.overflows_eq.trans hfits.overflows_eq
  enclosed := by
    rw [h.settings_eq, h.registry_eq, h.constraints_eq]
    exact hfits.enclosed

theorem SameTask.hindered {host after : Host} (hafter : host.Precedes after)
    (hhindered : solver.Hindered after) : other.Hindered host :=
  fun ⟨hfits, hserves⟩ => hhindered
    ⟨h.fits hfits, h.settings_eq ▸ hserves.of_precedes hafter⟩

end SameTask

-- Clauses of constraints that were built, and that have room, fit the backend.
theorem fits_of_built (settings : Settings) {registry : Registry} {constraints : List Constraint}
    (h : settings.backend = .maxSat → registry.Reachable ∧
      (∀ c ∈ constraints, Constraint.Built registry c) ∧
      registry.slots.size * registry.lattice.size +
        (Constraint.potentialsOfAll constraints).dedup.length < 0x80000000 ∧
      Cnf.HasRoom registry constraints) :
    (new settings registry constraints).Fits := by
  by_cases hbackend : settings.backend = .maxSat
  · obtain ⟨hreachable, hbuilt, hcount, hroom⟩ := h hbackend
    have hwf := hreachable.wellFormed
    obtain ⟨cnf, numbering, hencode, hfits, hcnf⟩ := Cnf.encode_represents hwf hbuilt hcount hroom
    refine ⟨by simp [overflows, new, hencode, Except.mapError, breaksOff], fun _ cnf' hencode' => ?_⟩
    cases hencode.symm.trans hencode'
    refine ⟨hcnf.isWithin hfits hwf hbuilt, ?_⟩
    rw [hcnf.slots_eq, hcnf.size_eq, hcnf.count_eq]
    exact fun id hid => hfits.row_le_count (hwf.index_lt hid)
  · exact ⟨by simp [overflows, new, hbackend], fun hother => absurd hother hbackend⟩

theorem settle_eq {α : Type} (solver : Solver) (answer : Except SolverError α) :
    solver.settle answer = if breaksOff answer then solver else solver.enter .done := by
  cases answer with
  | ok a => rfl
  | error e => cases e <;> rfl

-- What is left behind when there is no input for the backend.
structure Unprepared (solver : Solver) (e : SolverError) (after : Solver) : Prop where
  sameTask : after.SameTask solver
  unsatisfiable_eq : after.unsatisfiable = solver.unsatisfiable
  ordinary : OrdinaryUnless (solver.overflows = true) (.error e : Except SolverError Unit)
  isFault_eq : e.isFault = solver.overflows
  state_eq : after.state = if e.isFault then .serializing else .done

-- Whether the error breaks off decides between staying in `serializing` and going on to `done`.
theorem settle_unprepared {α : Type} {solver begun : Solver} (hsame : begun.SameTask solver)
    (hkept : begun.unsatisfiable = solver.unsatisfiable) (hstate : begun.state = .serializing)
    {e : Inconsistency} (hfault : (SolverError.ofInconsistency e).isFault = solver.overflows) :
    solver.Unprepared (.ofInconsistency e)
      (begun.settle (.error (.ofInconsistency e) : Except SolverError α)) where
  sameTask := (settle_sameTask _ _).trans hsame
  unsatisfiable_eq := by
    rw [settle_eq, ← hkept]
    split <;> rfl
  ordinary := by
    refine OrdinaryUnless.mono (ordinaryUnless_ofInconsistency (.error e)) ?_
    rintro ⟨cause, he⟩
    cases he
    exact hfault.symm
  isFault_eq := hfault
  state_eq := by
    rw [settle_eq, breaksOff, ← hstate]
    split <;> rfl

section Steps

variable (solver : Solver) (mode : ScriptMode) (sat : Sat.Procedure) (host : Host)

-- Only the encoding can break off; a script is text, and its size is not bounded.
theorem serialize_cases :
    (∃ e after, solver.serialize mode host = (.error e, after, host) ∧
        solver.Unprepared e after) ∨
      ∃ input after host', solver.serialize mode host = (.ok input, after, host') ∧
        after.SameTask solver ∧ after.unsatisfiable = solver.unsatisfiable ∧
        solver.overflows = false ∧ host.Precedes host' ∧ solver.Prepares mode input := by
  unfold serialize
  cases hbackend : solver.settings.backend with
  | maxSat =>
      have hoverflows : solver.overflows = breaksOff ((Cnf.encode solver.registry
          solver.constraints).mapError .ofInconsistency) := by
        simp [overflows, hbackend]
      cases hencode : Cnf.encode solver.registry solver.constraints with
      | error e =>
          rw [hencode] at hoverflows
          refine .inl ⟨.ofInconsistency e, _, rfl, ?_⟩
          apply settle_unprepared
          · exact ⟨rfl, rfl, rfl⟩
          · rfl
          · rfl
          · exact hoverflows.symm
      | ok cnf =>
          rw [hencode] at hoverflows
          exact .inr ⟨.cnf cnf, _, _, rfl, ⟨rfl, rfl, rfl⟩, rfl, hoverflows,
            host.precedes_writeTo _ _, hbackend, hencode⟩
  | smt =>
      have hoverflows : solver.overflows = false := by simp [overflows, hbackend]
      cases hscript : Script.ofConstraints solver.registry solver.constraints mode with
      | error e =>
          have hfault : (SolverError.ofInconsistency e).isFault = false := by
            -- Writing a script computes with no number that is bounded.
            rw [Bool.eq_false_iff, ne_eq, isFault_ofInconsistency]
            rintro ⟨cause, rfl⟩
            exact Script.ofConstraints_ne_fault _ mode cause hscript
          refine .inl ⟨.ofInconsistency e, _, rfl, ?_⟩
          apply settle_unprepared
          · exact ⟨rfl, rfl, rfl⟩
          · rfl
          · rfl
          · exact hfault.trans hoverflows.symm
      | ok script =>
          exact .inr ⟨.script script, _, _, rfl, ⟨rfl, rfl, rfl⟩, rfl, hoverflows, .refl host,
            hbackend, hscript⟩

variable {solver mode} {input : BackendInput}

-- What a backend says is ordinary unless something hinders it, whichever of the two it is asked.
theorem Prepares.answers_ordinary (hinput : solver.Prepares mode input) {asking : Solver}
    (hsame : asking.SameTask solver) :
    OrdinaryUnless (solver.Hindered host) (asking.ask sat input host).1 ∧
      OrdinaryUnless (solver.Hindered host) (asking.askWhy sat input host).1 := by
  cases input with
  | cnf cnf =>
      obtain ⟨hbackend, hencode⟩ := hinput
      have hhindered : ¬host.Serves asking.settings ∨ ¬cnf.Enclosed → solver.Hindered host := by
        rw [hsame.settings_eq]
        rintro (hserves | henclosed) ⟨hfits, hserves'⟩
        · exact hserves hserves'
        · exact henclosed (hfits.enclosed hbackend cnf hencode)
      rw [← hsame.settings_eq] at hbackend
      exact ⟨(timed_ordinary hbackend host (cnf.solve_ordinary _)).mono hhindered,
        (timed_ordinary hbackend host (cnf.explain_ordinary _ _)).mono hhindered⟩
  | script script =>
      have hhindered : ¬host.Serves asking.settings → solver.Hindered host := by
        rw [hsame.settings_eq]
        exact fun hserves h => hserves h.2
      have hbackend : asking.settings.backend = .smt := hsame.settings_eq ▸ hinput.1
      exact ⟨(script.solve_ordinary hbackend host _).mono hhindered,
        (script.explain_ordinary hbackend host _).mono hhindered⟩

theorem precedes_ask (asking : Solver) (input : BackendInput) :
    host.Precedes (asking.ask sat input host).2 := by
  cases input with
  | cnf cnf => exact asking.precedes_timed host _
  | script script =>
      have hrun := @Script.precedes_run script asking.settings host
      unfold ask Script.solve
      dsimp only
      split <;> simp_all

end Steps

-- What an attempt to solve leaves behind, whatever it has answered.
structure Attempted (solver : Solver) (host : Host)
    (answer : Except SolverError (Option Solution)) (after : Solver) : Prop where
  sameTask : after.SameTask solver
  unsatisfiable_iff : after.unsatisfiable = true ↔ answer = .ok none
  ordinary : OrdinaryUnless (solver.Hindered host) answer
  breaksOff_of_overflows : solver.overflows = true → breaksOff answer = true
  state_eq : after.state = if breaksOff answer then solver.stage else .done

theorem verify_ne_none (solver : Solver) (solution : Solution) :
    solver.verify solution ≠ .ok none := by
  unfold verify
  split
  · split <;> simp
  · simp

def conclude (asking : Solver) (answer : Except SolverError (Option Solution)) (host : Host) :
    Answer (Option Solution) :=
  match answer with
  | .error e => (.error e, asking.settle answer, host)
  | .ok none => (.ok none, { asking.settle answer with unsatisfiable := true }, host)
  | .ok (some solution) => ((asking.settle answer).verify solution, asking.settle answer, host)

-- The three answers: an error, no solution, and a solution that is verified after the state is
-- already `done`.
theorem conclude_attempted {solver asking : Solver}
    {answer : Except SolverError (Option Solution)} (hsame : asking.SameTask solver)
    (hunsatisfiable : asking.unsatisfiable = false) (hstate : asking.state = .solving)
    (hoverflows : solver.overflows = false) {host : Host}
    (hanswer : OrdinaryUnless (solver.Hindered host) answer) (host' : Host) :
    solver.Attempted host (asking.conclude answer host').1 (asking.conclude answer host').2.1 := by
  have habsurd {P : Prop} : solver.overflows = true → P := fun h => by cases hoverflows ▸ h
  have hstage : solver.stage = .solving := by rw [stage, hoverflows]; rfl
  have hdone := hsame.enter .done
  cases answer with
  | error e =>
      refine ⟨(settle_sameTask _ _).trans hsame, ?_, hanswer, habsurd, ?_⟩
      · simp only [conclude, settle_eq]
        split <;> simp [enter, hunsatisfiable]
      · rw [hstage, ← hstate]
        simp only [conclude, settle_eq]
        split <;> rfl
  | ok found =>
      cases found with
      | none =>
          exact ⟨⟨hdone.settings_eq, hdone.registry_eq, hdone.constraints_eq⟩,
            by simp [conclude], hanswer, habsurd, rfl⟩
      | some solution =>
          have hverify := verify_ordinary (asking.enter .done) solution
          refine ⟨hdone, ?_, hverify.mono False.elim, habsurd, ?_⟩
          · exact iff_of_false (by simp [conclude, settle, enter, hunsatisfiable])
              (verify_ne_none _ solution)
          · have hanswered := Bool.eq_false_iff.mpr (mt hverify.of_breaksOff id)
            simp only [conclude, settle_eq, breaksOff, Bool.false_eq_true, if_false] at hanswered ⊢
            rw [if_neg (Bool.eq_false_iff.mp hanswered)]
            rfl

section Calls

variable (solver : Solver) (sat : Sat.Procedure) (host : Host)

theorem solve_eq_conclude {input : BackendInput} {after : Solver} {host' : Host}
    (h : { solver with unsatisfiable := false }.serialize
      (if solver.settings.optimizing then .optimize else .satisfy) host =
        (.ok input, after, host')) :
    solver.solve sat host = (after.enter .solving).conclude
      ((after.enter .solving).ask sat input host').1
      ((after.enter .solving).ask sat input host').2 := by
  unfold solve
  dsimp only
  rw [h]
  rfl

-- A failed serialization is the answer; otherwise it is what the procedure says, and the host it
-- says it on has only moved on.
theorem solve_attempted :
    solver.Attempted host (solver.solve sat host).1 (solver.solve sat host).2.1 ∧
      host.Precedes (solver.solve sat host).2.2 := by
  have hfresh : { solver with unsatisfiable := false }.SameTask solver := ⟨rfl, rfl, rfl⟩
  rcases serialize_cases { solver with unsatisfiable := false }
    (if solver.settings.optimizing then .optimize else .satisfy) host with
    ⟨e, after, heq, hfailed⟩ |
    ⟨input, after, host', heq, hsame, hunsatisfiable, hoverflows, hprecedes, hinput⟩
  · have hsolve : solver.solve sat host = (.error e, after, host) := by
      unfold solve
      dsimp only
      rw [heq]
    have hfault : e.isFault = solver.overflows := hfailed.isFault_eq
    rw [hsolve]
    refine ⟨⟨hfailed.sameTask.trans hfresh, ?_, ?_, fun h => hfault.trans h, ?_⟩, .refl host⟩
    · simp [hfailed.unsatisfiable_eq]
    · refine OrdinaryUnless.mono (ordinaryUnless_error.mpr
        (ordinaryUnless_error.mp hfailed.ordinary)) fun h hfits => ?_
      cases hfits.1.overflows_eq ▸ h
    · rw [hfailed.state_eq, breaksOff, stage, ← hfault]
      split <;> rfl
  · have hasking := (hsame.trans hfresh).enter .solving
    have hanswer := (hinput.answers_ordinary sat host' (hsame.enter .solving)).1
    rw [solver.solve_eq_conclude sat host heq]
    refine ⟨conclude_attempted hasking hunsatisfiable rfl hoverflows (hanswer.mono ?_) _, ?_⟩
    · exact hfresh.hindered hprecedes
    · have hasked := hprecedes.trans (precedes_ask sat host' (after.enter .solving) input)
      unfold conclude
      split <;> exact hasked

theorem explain_refused (h : ¬(solver.unsatisfiable = true ∧ solver.state = .done)) :
    solver.explain sat host = (.error (.invalidState solver.state), solver, host) := by
  rw [explain, if_neg]
  simpa using h

-- What an explanation leaves behind that was asked for at the right time. It can be asked for
-- again when it has failed, unless it broke off.
structure Explained (solver : Solver) (host : Host) (answer : Except SolverError Explanation)
    (after : Solver) : Prop where
  sameTask : after.SameTask solver
  unsatisfiable : after.unsatisfiable = true
  ordinary : OrdinaryUnless (solver.Hindered host) answer
  state_eq : after.state = if breaksOff answer then .explaining else .done

-- As for `solve_attempted`, but the mark of unsatisfiability is kept in both cases.
theorem explain_explained (hunsatisfiable : solver.unsatisfiable = true)
    (hstate : solver.state = .done) (hoverflows : solver.overflows = false) :
    solver.Explained host (solver.explain sat host).1 (solver.explain sat host).2.1 := by
  rw [explain, if_pos (by simp [hunsatisfiable, hstate])]
  rcases serialize_cases solver .explain host with
    ⟨e, after, heq, hfailed⟩ | ⟨input, after, host', heq, hsame, hkept, -, hprecedes, hinput⟩
  · have hfault : e.isFault = false := hfailed.isFault_eq.trans hoverflows
    rw [heq]
    refine ⟨hfailed.sameTask, hfailed.unsatisfiable_eq.trans hunsatisfiable, ?_, ?_⟩
    · refine OrdinaryUnless.mono (ordinaryUnless_error.mpr
        (ordinaryUnless_error.mp hfailed.ordinary)) fun h => ?_
      cases hoverflows ▸ h
    · rw [hfailed.state_eq, breaksOff, hfault]
      rfl
  · have hasking := hsame.enter .explaining
    have hanswer := (hinput.answers_ordinary sat host' hasking).2
    rw [heq]
    dsimp only
    refine ⟨(settle_sameTask _ _).trans hasking, ?_, hanswer.mono ?_, ?_⟩
    · rw [settle_eq]
      split <;> exact hkept.trans hunsatisfiable
    · exact SameTask.hindered ⟨rfl, rfl, rfl⟩ hprecedes
    · rw [settle_eq]
      split <;> rfl

-- An inference is an attempt to solve, followed by an explanation if there is no solution.
theorem infer_cases :
    ((solver.solve sat host).1 ≠ .ok none ∧
        (solver.infer sat host).2.1 = (solver.solve sat host).2.1 ∧
        Except.outcome (solver.infer sat host).1 = Except.outcome (solver.solve sat host).1) ∨
      ∃ after host', solver.solve sat host = (.ok none, after, host') ∧
        (solver.infer sat host).2.1 = (after.explain sat host').2.1 ∧
        Except.outcome (solver.infer sat host).1 =
          Except.outcome (after.explain sat host').1 := by
  unfold infer
  rcases solver.solve sat host with ⟨answer, after, host'⟩
  cases answer with
  | error e => exact .inl ⟨by simp, rfl, rfl⟩
  | ok found =>
      cases found with
      | some solution => exact .inl ⟨by simp, rfl, rfl⟩
      | none =>
          refine .inr ⟨after, host', rfl, ?_⟩
          dsimp only
          rcases after.explain sat host' with ⟨explanation, last, host''⟩
          cases explanation with
          | error e => exact ⟨rfl, rfl⟩
          | ok explanation => exact ⟨rfl, rfl⟩

-- When there is no solution an explanation can be asked for.
theorem Attempted.explained {solver after : Solver} {host : Host}
    (h : solver.Attempted host (.ok none) after) (sat : Sat.Procedure) (host' : Host) :
    after.Explained host' (after.explain sat host').1 (after.explain sat host').2.1 := by
  refine explain_explained after sat host' (h.unsatisfiable_iff.mpr rfl) h.state_eq ?_
  rw [h.sameTask.overflows_eq]
  exact Bool.eq_false_iff.mpr (mt h.breaksOff_of_overflows (by simp [breaksOff]))

theorem infer_ne_invalidState (state : SolverState) :
    (solver.infer sat host).1 ≠ .error (.invalidState state) := by
  intro h
  have houtcome : Except.outcome (solver.infer sat host).1 = .error (.invalidState state) :=
    Except.map_eq_error.mpr h
  have hsolve := (solve_attempted solver sat host).1
  rcases infer_cases solver sat host with ⟨-, -, heq⟩ | ⟨after, host', hnone, -, heq⟩
  · exact hsolve.ordinary.ne_invalidState state
      (Except.map_eq_error.mp (heq.symm.trans houtcome))
  · rw [hnone] at hsolve
    exact (hsolve.explained sat host').ordinary.ne_invalidState state
      (Except.map_eq_error.mp (heq.symm.trans houtcome))

end Calls

inductive Request where
  | solve
  | explain
  | infer
deriving DecidableEq, Repr

-- A call finds its own world, and time may run out in it though it did not in another.
structure Call where
  request : Request
  sat : Sat.Procedure
  host : Host
  timeout : Option Duration

def limit (solver : Solver) (timeout : Option Duration) : Solver :=
  { solver with settings := { solver.settings with timeout := timeout } }

theorem SameTask.limit {solver first : Solver} {before : Option Duration}
    (h : solver.SameTask (first.limit before)) (timeout : Option Duration) :
    (solver.limit timeout).SameTask (first.limit timeout) := by
  refine ⟨?_, h.registry_eq, h.constraints_eq⟩
  rw [Solver.limit, h.settings_eq]
  rfl

def perform (solver : Solver) (call : Call) : Except SolverError Unit × Solver :=
  match call.request with
  | .solve =>
      let (answer, after, _) := (solver.limit call.timeout).solve call.sat call.host
      (Except.outcome answer, after)
  | .explain =>
      let (answer, after, _) := (solver.limit call.timeout).explain call.sat call.host
      (Except.outcome answer, after)
  | .infer =>
      let (answer, after, _) := (solver.limit call.timeout).infer call.sat call.host
      (Except.outcome answer, after)

def attempt? (solver : Solver) (call : Call) : Option (Except SolverError (Option Solution)) :=
  match call.request with
  | .explain => none
  | _ => some ((solver.limit call.timeout).solve call.sat call.host).1

-- A solver in use, the answer of the last attempt to solve, and whether the last call that was not
-- refused broke off.
structure Session where
  solver : Solver
  last : Option (Except SolverError (Option Solution))
  stopped : Bool

namespace Session

def stoppedAfter (stopped : Bool) (answer : Except SolverError Unit) : Bool :=
  match answer with
  | .error (.invalidState _) => stopped
  | _ => breaksOff answer

theorem stoppedAfter_outcome {α : Type} {answer : Except SolverError α}
    (h : ∀ state, answer ≠ .error (.invalidState state)) (stopped : Bool) :
    stoppedAfter stopped (Except.outcome answer) = breaksOff answer := by
  cases answer with
  | ok a => rfl
  | error e =>
      cases e with
      | invalidState state => exact absurd rfl (h state)
      | _ => rfl

def start (settings : Settings) (registry : Registry) (constraints : List Constraint) :
    Session where
  solver := new settings registry constraints
  last := none
  stopped := false

def step (session : Session) (call : Call) : Session where
  solver := (session.solver.perform call).2
  last := (session.solver.attempt? call).or session.last
  stopped := stoppedAfter session.stopped (session.solver.perform call).1

def run (session : Session) (calls : List Call) : Session :=
  calls.foldl step session

-- The solver still has to solve what it had to solve first, and its state and its flag agree with
-- the last attempt and with whether it was broken off.
structure Coherent (first : Solver) (session : Session) : Prop where
  sameTask : ∃ timeout, session.solver.SameTask (first.limit timeout)
  unsatisfiable_iff : session.solver.unsatisfiable = true ↔ session.last = some (.ok none)
  overflows_eq : session.last = some (.ok none) → first.overflows = false
  idle : session.last = none → session.stopped = false ∧ session.solver.state = .idle
  done : session.last ≠ none → session.stopped = false → session.solver.state = .done
  stopped_cases : session.stopped = true →
    session.last = some (.ok none) ∧ session.solver.state = .explaining ∨
      (∃ cause, session.last = some (.error (.fault cause))) ∧ session.solver.state = first.stage
  stopped_of_fault : (∃ cause, session.last = some (.error (.fault cause))) →
    session.stopped = true

section Step

variable {first : Solver} {session : Session}

theorem Coherent.limited (h : session.Coherent first) (timeout : Option Duration) :
    (session.solver.limit timeout).SameTask (first.limit timeout) := by
  obtain ⟨before, hsame⟩ := h.sameTask
  exact hsame.limit timeout

-- An attempt only depends on the task, which all sessions of one start share up to the time
-- limit.
theorem Coherent.attempted (h : session.Coherent first) {timeout : Option Duration} {host : Host}
    {answer : Except SolverError (Option Solution)} {after : Solver}
    (hattempted : (session.solver.limit timeout).Attempted host answer after) :
    Coherent first ⟨after, some answer, breaksOff answer⟩ := by
  have hoverflows : (session.solver.limit timeout).overflows = first.overflows :=
    (h.limited timeout).overflows_eq
  refine ⟨⟨timeout, hattempted.sameTask.trans (h.limited timeout)⟩, ?_, fun hlast => ?_,
    fun hnone => (by cases hnone), fun _ hstopped => ?_, fun hstopped => .inr ⟨?_, ?_⟩, ?_⟩
  · simp [hattempted.unsatisfiable_iff]
  · by_contra hother
    have hbroken := hattempted.breaksOff_of_overflows
      (hoverflows.trans (Bool.eq_true_of_not_eq_false hother))
    cases hlast
    cases hbroken
  · exact hattempted.state_eq.trans (if_neg (Bool.eq_false_iff.mp hstopped))
  · obtain ⟨cause, hcause⟩ := breaksOff_iff.mp hstopped
    exact ⟨cause, congrArg some hcause⟩
  · have hstage : (session.solver.limit timeout).stage = first.stage := by
      rw [stage, hoverflows]
      rfl
    exact hattempted.state_eq.trans ((if_pos hstopped).trans hstage)
  · rintro ⟨cause, hcause⟩
    exact breaksOff_iff.mpr ⟨cause, Option.some.inj hcause⟩

theorem Coherent.explained {solver : Solver} (h : Coherent first ⟨solver, some (.ok none), false⟩)
    {host : Host} {answer : Except SolverError Explanation} {after : Solver}
    (hexplained : solver.Explained host answer after) :
    Coherent first ⟨after, some (.ok none), breaksOff answer⟩ where
  sameTask := h.sameTask.imp fun _ hsame => hexplained.sameTask.trans hsame
  unsatisfiable_iff := by simp [hexplained.unsatisfiable]
  overflows_eq := h.overflows_eq
  idle hnone := by cases hnone
  done _ hstopped := hexplained.state_eq.trans (if_neg (Bool.eq_false_iff.mp hstopped))
  stopped_cases hstopped := .inl ⟨rfl, hexplained.state_eq.trans (if_pos hstopped)⟩
  stopped_of_fault := by
    rintro ⟨cause, hcause⟩
    cases hcause

-- An explanation is given exactly when the last attempt has found that there is no solution, and
-- no explanation has broken off since.
theorem Coherent.ready_iff (h : session.Coherent first) :
    (session.solver.unsatisfiable = true ∧ session.solver.state = .done) ↔
      session.last = some (.ok none) ∧ session.stopped = false := by
  rw [h.unsatisfiable_iff]
  refine and_congr_right fun hlast => ⟨fun hstate => ?_, h.done (by simp [hlast])⟩
  by_contra hother
  rcases h.stopped_cases (Bool.eq_true_of_not_eq_false hother) with
    ⟨-, hexplaining⟩ | ⟨⟨cause, hfault⟩, -⟩
  · cases hstate.symm.trans hexplaining
  · cases hlast.symm.trans hfault

theorem Coherent.limit (h : session.Coherent first) (timeout : Option Duration) :
    Coherent first ⟨session.solver.limit timeout, session.last, session.stopped⟩ :=
  ⟨⟨timeout, h.limited timeout⟩, h.unsatisfiable_iff, h.overflows_eq, h.idle, h.done,
    h.stopped_cases, h.stopped_of_fault⟩

theorem Coherent.explain_refused (h : session.Coherent first)
    (hlast : ¬(session.last = some (.ok none) ∧ session.stopped = false))
    (timeout : Option Duration) (sat : Sat.Procedure) (host : Host) :
    (session.solver.limit timeout).explain sat host =
      (.error (.invalidState session.solver.state), session.solver.limit timeout, host) :=
  Solver.explain_refused _ sat host (mt h.ready_iff.mp hlast)

theorem Coherent.explain_explained (h : session.Coherent first)
    (hlast : session.last = some (.ok none)) (hstopped : session.stopped = false)
    (timeout : Option Duration) (sat : Sat.Procedure) (host : Host) :
    (session.solver.limit timeout).Explained host
      ((session.solver.limit timeout).explain sat host).1
      ((session.solver.limit timeout).explain sat host).2.1 := by
  obtain ⟨hunsatisfiable, hstate⟩ := h.ready_iff.mpr ⟨hlast, hstopped⟩
  refine Solver.explain_explained _ sat host hunsatisfiable hstate ?_
  exact (h.limited timeout).overflows_eq.trans (h.overflows_eq hlast)

-- How a call changes a session: by an attempt to solve, by an explanation, by both one after the
-- other, or not at all because it is refused. It breaks off only if something hinders it.
theorem Coherent.step (h : session.Coherent first) (call : Call) :
    (session.step call).Coherent first ∧
      ((session.step call).stopped = true →
        session.stopped = true ∨ (session.solver.limit call.timeout).Hindered call.host) := by
  have hsolve := solve_attempted (session.solver.limit call.timeout) call.sat call.host
  unfold Session.step perform attempt?
  cases call.request with
  | solve =>
      dsimp only
      rw [stoppedAfter_outcome hsolve.1.ordinary.ne_invalidState]
      exact ⟨h.attempted hsolve.1, fun hbroken => .inr (hsolve.1.ordinary.of_breaksOff hbroken)⟩
  | infer =>
      rcases infer_cases (session.solver.limit call.timeout) call.sat call.host with
        ⟨-, hafter, houtcome⟩ | ⟨after, host', heq, hafter, houtcome⟩
      · dsimp only
        rw [hafter, houtcome, stoppedAfter_outcome hsolve.1.ordinary.ne_invalidState]
        exact ⟨h.attempted hsolve.1, fun hbroken => .inr (hsolve.1.ordinary.of_breaksOff hbroken)⟩
      · rw [heq] at hsolve
        have hmiddle : Coherent first ⟨after, some (.ok none), false⟩ := h.attempted hsolve.1
        have hexplained := hsolve.1.explained call.sat host'
        dsimp only
        rw [hafter, houtcome, stoppedAfter_outcome hexplained.ordinary.ne_invalidState, heq]
        refine ⟨hmiddle.explained hexplained, fun hbroken => .inr ?_⟩
        exact hsolve.1.sameTask.hindered hsolve.2 (hexplained.ordinary.of_breaksOff hbroken)
  | explain =>
      by_cases hready : session.last = some (.ok none) ∧ session.stopped = false
      · have hexplained := h.explain_explained hready.1 hready.2 call.timeout call.sat call.host
        have hlimited := h.limit call.timeout
        rw [hready.1, hready.2] at hlimited
        dsimp only
        rw [stoppedAfter_outcome hexplained.ordinary.ne_invalidState, Option.none_or, hready.1]
        exact ⟨hlimited.explained hexplained,
          fun hbroken => .inr (hexplained.ordinary.of_breaksOff hbroken)⟩
      · dsimp only
        rw [h.explain_refused hready]
        exact ⟨h.limit call.timeout, .inl⟩

-- By induction on the calls, each step taking one coherent session to the next.
theorem Coherent.run (h : session.Coherent first) (calls : List Call) :
    (session.run calls).Coherent first ∧
      (session.stopped = false → first.Fits →
        (∀ call ∈ calls, call.host.Serves { first.settings with timeout := call.timeout }) →
        (session.run calls).stopped = false) := by
  induction calls generalizing session with
  | nil => exact ⟨h, fun hstopped _ _ => hstopped⟩
  | cons call rest ih =>
      obtain ⟨hstep, hhindered⟩ := h.step call
      refine ⟨(ih hstep).1, fun hstopped hfits hserves => ?_⟩
      obtain ⟨hcall, hrest⟩ := List.forall_mem_cons.mp hserves
      refine (ih hstep).2 ?_ hfits hrest
      by_contra hbroken
      rcases hhindered (Bool.eq_true_of_not_eq_false hbroken) with hbefore | hhindered
      · cases hstopped.symm.trans hbefore
      · exact (h.limited call.timeout).hindered (.refl call.host) hhindered
          ⟨⟨hfits.overflows_eq, hfits.enclosed⟩, hcall⟩

end Step

theorem start_coherent (settings : Settings) (registry : Registry)
    (constraints : List Constraint) :
    (start settings registry constraints).Coherent (new settings registry constraints) where
  sameTask := ⟨settings.timeout, rfl, rfl, rfl⟩
  unsatisfiable_iff := by simp [start, new]
  overflows_eq h := by cases h
  idle _ := ⟨rfl, rfl⟩
  done h := absurd rfl h
  stopped_cases h := by cases h
  stopped_of_fault h := by
    obtain ⟨cause, h⟩ := h
    cases h

theorem run_last_eq_none_iff (session : Session) (calls : List Call) :
    (session.run calls).last = none ↔
      session.last = none ∧ ∀ call ∈ calls, call.request = .explain := by
  induction calls generalizing session with
  | nil => simp [run]
  | cons call rest ih =>
      have hstep : (session.step call).last = none ↔
          session.last = none ∧ call.request = .explain := by
        cases hrequest : call.request <;> simp [step, attempt?, hrequest]
      rw [List.forall_mem_cons, ← and_assoc, ← hstep]
      exact ih (session.step call)

-- Whatever was asked of a solver and however it went, the solver is idle if it was never to solve,
-- and otherwise it is done, unless the last call broke off in the middle of its work. An
-- explanation is refused exactly when the last attempt to solve did not end without a solution, or
-- when a call has broken off since, and then nothing changes. No call breaks off as long as the
-- constraints were built and their clauses have room, all times are in range, and nothing that is
-- printed is too large.
theorem run_lifecycle (settings : Settings) (registry : Registry) (constraints : List Constraint)
    (calls : List Call) :
    ∃ solver last stopped,
      (start settings registry constraints).run calls = ⟨solver, last, stopped⟩ ∧
      (last = none ↔ ∀ call ∈ calls, call.request = .explain) ∧
      (last = none → stopped = false ∧ solver.state = .idle) ∧
      (last ≠ none → stopped = false → solver.state = .done) ∧
      (stopped = true →
        last = some (.ok none) ∧ solver.state = .explaining ∨
          (∃ cause, last = some (.error (.fault cause))) ∧
            solver.state = (new settings registry constraints).stage) ∧
      ((∃ cause, last = some (.error (.fault cause))) → stopped = true) ∧
      ((settings.backend = .maxSat → registry.Reachable ∧
          (∀ c ∈ constraints, Constraint.Built registry c) ∧
          registry.slots.size * registry.lattice.size +
            (Constraint.potentialsOfAll constraints).dedup.length < 0x80000000 ∧
          Cnf.HasRoom registry constraints) →
        (∀ call ∈ calls, call.host.Serves { settings with timeout := call.timeout }) →
        stopped = false) ∧
      ∀ (timeout : Option Duration) (sat : Sat.Procedure) (host : Host),
        ((∃ state, ((solver.limit timeout).explain sat host).1 = .error (.invalidState state)) ↔
          ¬(last = some (.ok none) ∧ stopped = false)) ∧
        (¬(last = some (.ok none) ∧ stopped = false) →
          (solver.limit timeout).explain sat host =
            (.error (.invalidState solver.state), solver.limit timeout, host)) ∧
        ∀ state, ((solver.limit timeout).infer sat host).1 ≠ .error (.invalidState state) := by
  obtain ⟨h, hserved⟩ := (start_coherent settings registry constraints).run calls
  have hnone := run_last_eq_none_iff (start settings registry constraints) calls
  generalize (start settings registry constraints).run calls = session at h hserved hnone ⊢
  refine ⟨session.solver, session.last, session.stopped, rfl, hnone.trans (and_iff_right rfl),
    h.idle, h.done, h.stopped_cases, h.stopped_of_fault,
    fun hbuilt => hserved rfl (fits_of_built settings hbuilt),
    fun timeout sat host => ⟨⟨?_, fun hlast => ?_⟩, ?_, ?_⟩⟩
  · rintro ⟨state, hstate⟩ ⟨hlast, hstopped⟩
    exact (h.explain_explained hlast hstopped timeout sat host).ordinary.ne_invalidState state hstate
  · rw [h.explain_refused hlast]
    exact ⟨_, rfl⟩
  · exact fun hlast => h.explain_refused hlast timeout sat host
  · exact infer_ne_invalidState _ sat host

end Session

section Sample

open Registry Session

def bothTaints : List Constraint :=
  [.relation .equality sinkSlot taintedSlot .missing,
    .relation .equality sinkSlot untaintedSlot .missing]

-- Runs out of time as soon as something is assumed, as it is for explanations.
def hasty : Sat.Procedure :=
  fun clauses assumptions =>
    if assumptions.isEmpty then Sat.bySearch clauses assumptions else .unknown

def endless : Duration :=
  ⟨0xFFFFFFFFFFFFFFFF, 999999999⟩

def quiet : Host where
  canStart _ := false
  canWrite _ := false
  clock := []
  outputs := []
  files := []
  runs := []

theorem taint_run_lifecycle :
    ((start .standard taint Cnf.taintFlow).run
        [⟨.explain, Sat.bySearch, quiet, none⟩]).solver.state = .idle ∧
      ((start .standard taint Cnf.taintFlow).run
        [⟨.solve, Sat.bySearch, quiet, none⟩]).solver.state = .done ∧
      (((new .standard taint bothTaints).solve hasty quiet).1 matches .ok none) = true ∧
      (((new .standard taint bothTaints).infer hasty quiet).1 matches .error .timeout) = true ∧
      ((start .standard taint bothTaints).run [⟨.infer, hasty, quiet, none⟩]).solver.state =
        .done ∧
      ((start .standard taint Cnf.taintFlow).run
        [⟨.solve, Sat.bySearch, quiet, some endless⟩]).solver.state = .solving ∧
      (new .standard taint Cnf.taintFlow).explain Sat.bySearch quiet =
        (.error (.invalidState .idle), new .standard taint Cnf.taintFlow, quiet) := by
  refine ⟨?_, ?_, by decide +kernel, by decide +kernel, ?_, ?_, ?_⟩
  · obtain ⟨solver, last, stopped, hrun, hnone, hidle, -⟩ :=
      run_lifecycle .standard taint Cnf.taintFlow [⟨.explain, Sat.bySearch, quiet, none⟩]
    rw [hrun]
    exact (hidle (hnone.mpr (by simp))).2
  · obtain ⟨solver, last, stopped, hrun, hnone, -, hdone, -, -, hbuilt, -⟩ :=
      run_lifecycle .standard taint Cnf.taintFlow [⟨.solve, Sat.bySearch, quiet, none⟩]
    rw [hrun]
    refine hdone (mt hnone.mp (by simp)) (hbuilt (fun _ => ?_) ?_)
    · exact ⟨taint_reachable, Cnf.taintFlow_built, by decide, by decide⟩
    · exact List.forall_mem_singleton.mpr fun now _ => ⟨none, rfl⟩
  · obtain ⟨solver, last, stopped, hrun, hnone, -, hdone, -⟩ :=
      run_lifecycle .standard taint bothTaints [⟨.infer, hasty, quiet, none⟩]
    have hstopped : stopped = false :=
      (congrArg Session.stopped hrun).symm.trans (by decide +kernel)
    rw [hrun]
    exact hdone (mt hnone.mp (by simp)) hstopped
  · obtain ⟨solver, last, stopped, hrun, -, -, -, hcases, hfault, -⟩ :=
      run_lifecycle .standard taint Cnf.taintFlow [⟨.solve, Sat.bySearch, quiet, some endless⟩]
    have hlast : last = some (.error (.fault .overflow)) :=
      (congrArg Session.last hrun).symm.trans rfl
    rw [hrun]
    rcases hcases (hfault ⟨.overflow, hlast⟩) with ⟨hnone, -⟩ | ⟨-, hstate⟩
    · cases hlast.symm.trans hnone
    · exact hstate.trans rfl
  · obtain ⟨solver, last, stopped, hrun, -, -, -, -, -, -, hexplain⟩ :=
      run_lifecycle .standard taint Cnf.taintFlow []
    cases hrun
    exact (hexplain none Sat.bySearch quiet).2.1 (by simp)

end Sample

end Qualify.Solver
