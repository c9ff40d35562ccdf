import Qualify.Proofs.Sat.Optimum

namespace Qualify.Sat

namespace Relaxation

-- The states of the search when nothing bounds it, each with the number of rounds that led there.
inductive Reached (sat : Procedure) (problem : Problem) : Nat → Relaxation → Prop
  | start : Reached sat problem 0 (start problem)
  | round {rounds : Nat} {r after : Relaxation} (h : Reached sat problem rounds r)
      (hstep : r.step sat = .ok after) : Reached sat problem (rounds + 1) after

section Reached

variable {sat : Procedure} {problem : Problem} {rounds : Nat} {r : Relaxation}

-- The search is the same with a bound, as long as the bound is not met.
theorem Reached.run_eq (h : Reached sat problem rounds r) (fuel : Nat) :
    run sat (rounds + fuel) (Relaxation.start problem) = run sat fuel r := by
  induction h generalizing fuel with
  | start => rw [Nat.zero_add]
  | @round rounds r after _ hstep ih =>
      have hbound : rounds + 1 + fuel = rounds + (fuel + 1) := by omega
      rw [hbound, ih, run, hstep]

theorem Reached.unique {other : Relaxation} (h : Reached sat problem rounds r)
    (hother : Reached sat problem rounds other) : r = other := by
  induction h generalizing other with
  | start =>
      cases hother
      rfl
  | round _ hstep ih =>
      cases hother with
      | round hbefore hagain =>
          cases ih hbefore
          exact Except.ok.inj (hstep.symm.trans hagain)

theorem Reached.earlier {later : Nat} (h : Reached sat problem later r) (hle : rounds ≤ later) :
    ∃ before, Reached sat problem rounds before := by
  induction h with
  | start =>
      cases Nat.le_zero.mp hle
      exact ⟨_, .start⟩
  | round hbefore hstep ih =>
      rcases Nat.le_succ_iff.mp hle with hle | rfl
      · exact ih hle
      · exact ⟨_, .round hbefore hstep⟩

-- A state that does not go on is the last one.
theorem Reached.le_of_stops (h : Reached sat problem rounds r) {optimum : Optimum}
    (hstop : r.step sat = .error optimum) {later : Nat} {other : Relaxation}
    (hother : Reached sat problem later other) : later ≤ rounds := by
  by_contra hlt
  obtain ⟨after, hafter⟩ := hother.earlier (Nat.lt_of_not_le hlt)
  cases hafter with
  | round hbefore hstep =>
      cases h.unique hbefore
      cases hstep.symm.trans hstop

variable (hwithin : problem.isWithin = true) (hsat : sat.Sound)
include hwithin hsat

theorem Reached.invariant (h : Reached sat problem rounds r) :
    r.Separated problem ∧ r.Exact problem := by
  induction h with
  | start => exact ⟨separated_start hwithin, exact_start problem⟩
  | round _ hstep ih =>
      obtain ⟨hr, hexact⟩ := ih
      obtain ⟨_, hstop, -⟩ | ⟨hstop, -⟩ | ⟨failed, hgo, hfailed, -⟩ | ⟨hstop, -⟩ :=
        step_cases hr hsat.toHonest
      · cases hstep.symm.trans hstop
      · cases hstep.symm.trans hstop
      · cases hstep.symm.trans hgo
        exact ⟨separated_relax hr failed, exact_relax hr hexact hsat.toBlames hfailed⟩
      · cases hstep.symm.trans hstop

theorem Reached.cost_lt (h : Reached sat problem rounds r) {after : Relaxation}
    (hstep : r.step sat = .ok after) : r.cost < after.cost := by
  have hr := (h.invariant hwithin hsat).1
  obtain ⟨_, hstop, -⟩ | ⟨hstop, -⟩ | ⟨failed, hgo, -, hlt⟩ | ⟨hstop, -⟩ :=
    step_cases hr hsat.toHonest
  · cases hstep.symm.trans hstop
  · cases hstep.symm.trans hstop
  · cases hstep.symm.trans hgo
    exact hlt
  · cases hstep.symm.trans hstop

theorem Reached.rounds_le_cost (h : Reached sat problem rounds r) : rounds ≤ r.cost := by
  induction h with
  | start => exact Nat.zero_le _
  | round hbefore hstep ih =>
      have hlt := hbefore.cost_lt hwithin hsat hstep
      omega

-- What is left to pay in the relaxed problem is what the original one costs beyond what is paid.
theorem Reached.cost_le (h : Reached sat problem rounds r) {valuation : Valuation}
    (hvaluation : Satisfies valuation problem.hard) : r.cost ≤ problem.costOf valuation := by
  obtain ⟨_, -, -, hlower⟩ := (h.invariant hwithin hsat).2.lower valuation hvaluation
  omega

-- Where some values satisfy the hard clauses, their cost leaves no room for more rounds.
theorem exists_stop_of_satisfies {valuation : Valuation}
    (hvaluation : Satisfies valuation problem.hard) :
    ∃ rounds r optimum, Reached sat problem rounds r ∧ r.step sat = .error optimum := by
  by_contra hnone
  have hall : ∀ rounds, ∃ r, Reached sat problem rounds r := by
    intro rounds
    induction rounds with
    | zero => exact ⟨_, .start⟩
    | succ rounds ih =>
        obtain ⟨r, hr⟩ := ih
        cases hstep : r.step sat with
        | ok after => exact ⟨after, hr.round hstep⟩
        | error optimum => exact absurd ⟨rounds, r, optimum, hr, hstep⟩ hnone
  obtain ⟨r, hr⟩ := hall (problem.costOf valuation + 1)
  have hrounds := hr.rounds_le_cost hwithin hsat
  have hcost := hr.cost_le hwithin hsat hvaluation
  omega

-- Where no values satisfy the hard clauses and no soft clause is blamed, there is no round at all.
theorem step_start_of_blameless
    (hnone : ∀ valuation, ¬Satisfies valuation problem.hard)
    (hblameless : ∀ failed, sat (Relaxation.start problem).clauses
      (Relaxation.start problem).assumptions = .unsat failed → failed = []) :
    (Relaxation.start problem).step sat = .error .unsatisfiable := by
  obtain ⟨valuation, -, hhard, -⟩ | ⟨hstop, -⟩ | ⟨failed, -, hfailed, hlt⟩ | ⟨hstop, -⟩ :=
    step_cases (separated_start hwithin) hsat.toHonest
  · exact absurd hhard (hnone valuation)
  · exact hstop
  · have hempty : (Relaxation.start problem).softs.filter (isFailed []) = [] :=
      List.filter_eq_nil_iff.mpr (by simp [isFailed])
    rw [hblameless failed hfailed] at hlt
    simp [relax, core, hempty, leastWeight] at hlt
  · exact absurd hstop (step_ne_unknown (separated_start hwithin) hsat)

-- A procedure that always blames some soft clause, even though the hard ones alone cannot hold,
-- keeps the search going.
theorem reached_of_blaming (hnone : ∀ valuation, ¬Satisfies valuation problem.hard)
    (hsoft : ∃ entry ∈ problem.soft, 0 < entry.2)
    (hblaming : ∀ clauses assumptions failed, assumptions ≠ [] →
      sat clauses assumptions = .unsat failed → failed ≠ []) (rounds : Nat) :
    ∃ r, Reached sat problem rounds r ∧ r.softs ≠ [] := by
  induction rounds with
  | zero =>
      obtain ⟨entry, hentry, hpos⟩ := hsoft
      refine ⟨_, .start, ?_⟩
      simp only [Relaxation.start, ne_eq, List.map_eq_nil_iff, List.zipIdx_eq_nil_iff,
        List.filter_eq_nil_iff]
      exact fun hall => hall entry hentry (decide_eq_true hpos)
  | succ rounds ih =>
      obtain ⟨r, hreached, hne⟩ := ih
      obtain ⟨hr, hexact⟩ := hreached.invariant hwithin hsat
      have hassumptions : r.assumptions ≠ [] := by simpa [assumptions] using hne
      cases hverdict : sat r.clauses r.assumptions with
      | sat valuation =>
          have hclauses := (hsat.sat_holds (nonZero_clauses hr) (assumptions_ne_zero hr) hverdict).1
          have hhard := (satisfies_append _ _ _).mp hclauses |>.1
          exact absurd (hexact.upper valuation hhard).1 (hnone valuation)
      | unsat failed =>
          obtain ⟨l, hl⟩ := List.exists_mem_of_ne_nil _ (hblaming _ _ _ hassumptions hverdict)
          have hsub := hsat.failed_subset (nonZero_clauses hr) (assumptions_ne_zero hr) hverdict hl
          obtain ⟨soft, hmem, rfl⟩ := List.mem_map.mp hsub
          have hin : isFailed failed soft = true := List.contains_iff_mem.mpr hl
          obtain ⟨i, hcore⟩ := exists_mem_core hmem hin
          refine ⟨r.relax failed, hreached.round ?_, ?_⟩
          · simp only [step, hverdict, List.any_eq_true.mpr ⟨soft, hmem, hin⟩, if_true]
          · refine List.ne_nil_of_mem (a := r.relaxed (r.coreWeight failed) (soft, i)) ?_
            exact List.mem_append_left _ (List.mem_append_right _ (List.mem_map_of_mem hcore))
      | unknown =>
          exact absurd hverdict (hsat.decided (nonZero_clauses hr) (assumptions_ne_zero hr))

end Reached

end Relaxation

-- The search ends when the hard clauses can hold, and also when they cannot and no soft clause is
-- blamed for it; blaming soft clauses then keeps it going for ever. Each round pays at least one
-- unit, and never more than any values would have to.
theorem Problem.maximize_terminates (problem : Problem) (hwithin : problem.isWithin = true)
    (sat : Procedure) (hsat : sat.Sound) :
    (∀ rounds r, Relaxation.Reached sat problem rounds r →
        rounds ≤ r.cost ∧
        (∀ after, r.step sat = .ok after → r.cost + 1 ≤ after.cost) ∧
        ∀ valuation, Satisfies valuation problem.hard → r.cost ≤ problem.costOf valuation) ∧
      ((∃ valuation, Satisfies valuation problem.hard) ∨
          (∀ failed, sat (Relaxation.start problem).clauses
            (Relaxation.start problem).assumptions = .unsat failed → failed = []) →
        ∃ rounds last optimum, Relaxation.Reached sat problem rounds last ∧
          last.step sat = .error optimum ∧ optimum ≠ .unknown ∧
          (∀ later r, Relaxation.Reached sat problem later r → later ≤ rounds) ∧
          (∀ bound, rounds < bound →
            Relaxation.run sat bound (Relaxation.start problem) = optimum) ∧
          problem.maximize sat = optimum) ∧
      ((∀ valuation, ¬Satisfies valuation problem.hard) → (∃ entry ∈ problem.soft, 0 < entry.2) →
        (∀ clauses assumptions failed, assumptions ≠ [] →
          sat clauses assumptions = .unsat failed → failed ≠ []) →
        ∀ rounds, ∃ r, Relaxation.Reached sat problem rounds r) := by
  refine ⟨fun rounds r h => ⟨h.rounds_le_cost hwithin hsat,
    fun after hstep => h.cost_lt hwithin hsat hstep,
    fun valuation => h.cost_le hwithin hsat⟩, fun hends => ?_, fun hnone hsoft hblaming rounds => ?_⟩
  swap
  · obtain ⟨r, hreached, -⟩ :=
      Relaxation.reached_of_blaming hwithin hsat hnone hsoft hblaming rounds
    exact ⟨r, hreached⟩
  -- the bound that `maximize` works with is never met
  have hstop : ∃ rounds last optimum, Relaxation.Reached sat problem rounds last ∧
      last.step sat = .error optimum ∧ rounds ≤ problem.totalWeight := by
    by_cases hsome : ∃ valuation, Satisfies valuation problem.hard
    · obtain ⟨valuation, hvaluation⟩ := hsome
      obtain ⟨rounds, last, optimum, hreached, hstop⟩ :=
        Relaxation.exists_stop_of_satisfies hwithin hsat hvaluation
      have hrounds := hreached.rounds_le_cost hwithin hsat
      have hcost := hreached.cost_le hwithin hsat hvaluation
      have htotal := problem.costOf_le_totalWeight valuation
      exact ⟨rounds, last, optimum, hreached, hstop, by omega⟩
    · exact ⟨0, _, _, .start, Relaxation.step_start_of_blameless hwithin hsat
        (not_exists.mp hsome) (hends.resolve_left hsome), Nat.zero_le _⟩
  obtain ⟨rounds, last, optimum, hreached, hstop, htotal⟩ := hstop
  have hrun : ∀ bound, rounds < bound →
      Relaxation.run sat bound (Relaxation.start problem) = optimum := by
    intro bound hlt
    obtain ⟨fuel, rfl⟩ := Nat.exists_eq_add_of_lt hlt
    rw [Nat.add_assoc, hreached.run_eq, Relaxation.run, hstop]
  refine ⟨rounds, last, optimum, hreached, hstop, ?_, fun later r h => hreached.le_of_stops hstop h,
    hrun, hrun _ (Nat.lt_succ_of_le htotal)⟩
  rintro rfl
  exact Relaxation.step_ne_unknown (hreached.invariant hwithin hsat).1 hsat hstop

theorem oneOfThree_maximize_terminates :
    oneOfThree.isWithin = true ∧ Procedure.Sound bySearch ∧
      Satisfies (fun n => n == 1) oneOfThree.hard ∧
      ∃ rounds last, Relaxation.Reached bySearch oneOfThree rounds last ∧ rounds ≤ 8 ∧
        ∃ optimum, last.step bySearch = .error optimum ∧
          oneOfThree.maximize bySearch = optimum := by
  have hwithin : oneOfThree.isWithin = true := by decide
  have hhard : Satisfies (fun n => n == 1) oneOfThree.hard := by
    simp [oneOfThree, Literal.holds]
  have hcost : oneOfThree.costOf (fun n => n == 1) = 8 := by decide
  obtain ⟨hrounds, hends, -⟩ := oneOfThree.maximize_terminates hwithin bySearch bySearch_sound
  obtain ⟨rounds, last, optimum, hreached, hstop, -, -, -, hmaximize⟩ := hends (.inl ⟨_, hhard⟩)
  obtain ⟨hpaid, -, hleast⟩ := hrounds rounds last hreached
  exact ⟨hwithin, bySearch_sound, hhard, rounds, last, hreached,
    hcost ▸ Nat.le_trans hpaid (hleast _ hhard), optimum, hstop, hmaximize⟩

end Qualify.Sat
