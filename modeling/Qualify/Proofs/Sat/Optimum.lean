import Qualify.Proofs.Sat.Relaxation
import Qualify.Proofs.Sat.Search

namespace Qualify.Sat

-- What an answer promises: values that satisfy the hard clauses at the least possible cost, or
-- that there are none.
def Optimum.Answers (problem : Problem) : Optimum → Prop
  | optimal valuation cost =>
      Satisfies valuation problem.hard ∧ cost = problem.costOf valuation ∧
        cost ≤ problem.totalWeight ∧
        ∀ other, Satisfies other problem.hard → cost ≤ problem.costOf other
  | unsatisfiable => ∀ other, ¬Satisfies other problem.hard
  | unknown => True

theorem Problem.costOf_le_totalWeight (problem : Problem) (valuation : Valuation) :
    problem.costOf valuation ≤ problem.totalWeight := by
  unfold costOf totalWeight
  induction problem.soft with
  | nil => simp
  | cons entry rest ih =>
      simp only [List.map_cons, List.sum_cons, List.foldr_cons]
      split <;> omega

namespace Relaxation

theorem mem_softs_start {problem : Problem} {soft : Soft} (h : soft ∈ (start problem).softs) :
    (soft.literals, soft.weight) ∈ problem.soft ∧ 0 < soft.weight ∧
      problem.count < soft.blocker ∧ soft.blocker < (start problem).next := by
  obtain ⟨⟨⟨clause, weight⟩, i⟩, hentry, rfl⟩ := List.mem_map.mp h
  have hmem := List.mem_filter.mp (List.fst_mem_of_mem_zipIdx hentry)
  have hlt := List.snd_lt_of_mem_zipIdx hentry
  refine ⟨hmem.1, of_decide_eq_true hmem.2, ?_, ?_⟩
  · change problem.count < problem.count + 1 + i
    omega
  · change problem.count + 1 + i < problem.count + 1 + _
    omega

theorem within_of_mem_bodies_start {problem : Problem} (hwithin : problem.isWithin = true)
    {clause : Clause} (h : clause ∈ (start problem).bodies) :
    ∀ l ∈ clause, l ≠ 0 ∧ l.natAbs ≤ problem.count := by
  simp only [Problem.isWithin, Bool.and_eq_true, List.all_eq_true, Bool.or_eq_true, beq_iff_eq,
    Literal.isWithin, bne_iff_ne, decide_eq_true_eq] at hwithin
  rcases List.mem_append.mp h with h | h
  · exact hwithin.1 clause h
  · obtain ⟨soft, hsoft, rfl⟩ := List.mem_map.mp h
    obtain ⟨hmem, hpos, -⟩ := mem_softs_start hsoft
    exact (hwithin.2 _ hmem).resolve_left (Nat.ne_of_gt hpos)

-- The blockers are numbered from `count + 1` on, above every variable of the problem.
theorem separated_start {problem : Problem} (hwithin : problem.isWithin = true) :
    (start problem).Separated problem := by
  have hcount : problem.count < (start problem).next := by
    change problem.count < problem.count + 1 + _
    omega
  refine ⟨hcount, ?_, ?_, ?_, ?_, ?_⟩
  · intro clause hclause l hl
    exact (within_of_mem_bodies_start hwithin hclause l hl).1
  · intro clause hclause l hl
    exact Nat.lt_of_le_of_lt (within_of_mem_bodies_start hwithin hclause l hl).2 hcount
  · intro soft hsoft
    exact (mem_softs_start hsoft).2.2
  · intro soft hsoft clause hclause l hl
    have hle := (within_of_mem_bodies_start hwithin hclause l hl).2
    have hlt := (mem_softs_start hsoft).2.2.1
    omega
  · intro soft hsoft
    exact (mem_softs_start hsoft).2.1

-- Clauses of weight zero are left out at the start, and they cost nothing.
theorem residual_start (problem : Problem) (valuation : Valuation) :
    (start problem).residual valuation = problem.costOf valuation := by
  let price : Clause × Nat → Nat := fun entry =>
    if Clause.holds valuation entry.1 then 0 else entry.2
  have hsofts : (start problem).softs.map (Soft.penalty valuation) =
      (problem.soft.filter fun entry => 0 < entry.2).map price := by
    have hzip := List.zipIdx_map_fst 0 (problem.soft.filter fun entry => 0 < entry.2)
    calc
      (start problem).softs.map (Soft.penalty valuation) =
          (problem.soft.filter fun entry => 0 < entry.2).zipIdx.map (price ∘ Prod.fst) :=
        List.map_map
      _ = ((problem.soft.filter fun entry => 0 < entry.2).zipIdx.map Prod.fst).map price :=
        List.map_map.symm
      _ = (problem.soft.filter fun entry => 0 < entry.2).map price := by rw [hzip]
  -- a clause without weight costs nothing
  have hfilter : ∀ soft : List (Clause × Nat),
      ((soft.filter fun entry => 0 < entry.2).map price).sum = (soft.map price).sum := by
    intro soft
    induction soft with
    | nil => rfl
    | cons entry rest ih =>
        by_cases hpos : 0 < entry.2
        · simp [hpos, ih]
        · have hprice : price entry = 0 := by simp only [price]; split <;> omega
          simp [hpos, ih, hprice]
  rw [residual, hsofts, hfilter]
  rfl

theorem exact_start (problem : Problem) : (start problem).Exact problem := by
  have hcost : ∀ valuation,
      (start problem).cost + (start problem).residual valuation = problem.costOf valuation := by
    intro valuation
    rw [residual_start]
    exact Nat.zero_add _
  constructor
  · intro valuation hhard
    exact ⟨hhard, Nat.le_of_eq (hcost valuation).symm⟩
  · intro valuation hhard
    exact ⟨valuation, fun n _ => rfl, hhard, Nat.le_of_eq (hcost valuation)⟩

-- What one step can do: it finds values that pay for nothing more, it finds that no values exist,
-- it pays for a core and goes on, or it gives up.
theorem step_cases {problem : Problem} {r : Relaxation} (hr : r.Separated problem)
    {sat : Procedure} (hsat : sat.Honest) :
    (∃ valuation, r.step sat = .error (.optimal valuation r.cost) ∧
        Satisfies valuation r.hard ∧ r.residual valuation = 0) ∨
      (r.step sat = .error .unsatisfiable ∧ ∀ valuation, ¬Satisfies valuation r.hard) ∨
      (∃ failed, r.step sat = .ok (r.relax failed) ∧
        sat r.clauses r.assumptions = .unsat failed ∧ r.cost < (r.relax failed).cost) ∨
      r.step sat = .error .unknown ∧ sat r.clauses r.assumptions = .unknown := by
  have hzero := nonZero_clauses hr
  have hne := assumptions_ne_zero hr
  cases hverdict : sat r.clauses r.assumptions with
  | sat valuation =>
      obtain ⟨hclauses, hassumptions⟩ := hsat.sat_holds hzero hne hverdict
      refine .inl ⟨valuation, ?_, ((satisfies_append _ _ _).mp hclauses).1,
        residual_eq_zero_of_sat hr hclauses hassumptions⟩
      simp only [step, hverdict]
  | unsat failed =>
      by_cases hany : r.softs.any (isFailed failed) = true
      · obtain ⟨soft, hsoft, hin⟩ := List.any_eq_true.mp hany
        obtain ⟨i, hentry⟩ := exists_mem_core hsoft hin
        have hpaid : r.cost < (r.relax failed).cost :=
          Nat.lt_add_of_pos_right (coreWeight_pos hr hentry)
        refine .inr (.inr (.inl ⟨failed, ?_, rfl, hpaid⟩))
        simp only [step, hverdict, hany, if_true]
      · refine .inr (.inl ⟨?_, fun valuation hhard => ?_⟩)
        · simp only [step, hverdict, hany]
          rfl
        · obtain ⟨soft, hsoft, hin, -⟩ := exists_violated hr hsat.toBlames hverdict hhard
          exact hany (List.any_eq_true.mpr ⟨soft, hsoft, hin⟩)
  | unknown => exact .inr (.inr (.inr ⟨by simp only [step, hverdict], rfl⟩))

theorem step_ne_unknown {problem : Problem} {r : Relaxation} (hr : r.Separated problem)
    {sat : Procedure} (hsat : sat.Sound) : r.step sat ≠ .error .unknown := by
  intro hunknown
  obtain ⟨_, hstep, -⟩ | ⟨hstep, -⟩ | ⟨_, hstep, -⟩ | ⟨-, hverdict⟩ := step_cases hr hsat.toHonest
  · cases hunknown.symm.trans hstep
  · cases hunknown.symm.trans hstep
  · cases hunknown.symm.trans hstep
  · exact hsat.decided (nonZero_clauses hr) (assumptions_ne_zero hr) hverdict

theorem answers_optimal {problem : Problem} {r : Relaxation} (hexact : r.Exact problem)
    {valuation : Valuation} (hhard : Satisfies valuation r.hard)
    (hresidual : r.residual valuation = 0) : (Optimum.optimal valuation r.cost).Answers problem := by
  have hleast : ∀ other, Satisfies other problem.hard → r.cost ≤ problem.costOf other := by
    intro other hother
    obtain ⟨extended, -, -, hlower⟩ := hexact.lower other hother
    omega
  obtain ⟨hproblem, hupper⟩ := hexact.upper valuation hhard
  have hcost : r.cost = problem.costOf valuation := by
    have hlower := hleast valuation hproblem
    omega
  exact ⟨hproblem, hcost, hcost ▸ problem.costOf_le_totalWeight valuation, hleast⟩

-- By induction on the fuel: a relaxed problem is exact again, and each of the three ways to stop
-- answers for an exact one.
theorem run_answers {problem : Problem} {sat : Procedure} (hsat : sat.Honest) (fuel : Nat)
    (r : Relaxation) (hr : r.Separated problem) (hexact : r.Exact problem) :
    (run sat fuel r).Answers problem := by
  induction fuel generalizing r with
  | zero => trivial
  | succ fuel ih =>
      simp only [run]
      obtain ⟨valuation, hstep, hhard, hresidual⟩ | ⟨hstep, hnone⟩ | ⟨failed, hstep, hfailed, -⟩ |
        ⟨hstep, -⟩ := step_cases hr hsat
      · rw [hstep]
        exact answers_optimal hexact hhard hresidual
      · rw [hstep]
        intro other hother
        obtain ⟨extended, -, hhard, -⟩ := hexact.lower other hother
        exact hnone extended hhard
      · rw [hstep]
        exact ih _ (separated_relax hr failed) (exact_relax hr hexact hsat.toBlames hfailed)
      · rw [hstep]
        trivial

-- What has been paid never exceeds the cost of any values, and each step pays more. So the search
-- ends when there are values at all.
theorem run_ne_unknown {problem : Problem} {sat : Procedure} (hsat : sat.Sound)
    {valuation : Valuation} (hvaluation : Satisfies valuation problem.hard) (fuel : Nat)
    (r : Relaxation) (hr : r.Separated problem) (hexact : r.Exact problem)
    (hfuel : problem.costOf valuation < r.cost + fuel) : run sat fuel r ≠ .unknown := by
  induction fuel generalizing r with
  | zero =>
      obtain ⟨extended, -, -, hlower⟩ := hexact.lower valuation hvaluation
      omega
  | succ fuel ih =>
      simp only [run]
      obtain ⟨found, hstep, -⟩ | ⟨hstep, -⟩ | ⟨failed, hstep, hfailed, hlt⟩ | ⟨hstep, -⟩ :=
        step_cases hr hsat.toHonest
      · rw [hstep]
        intro h
        cases h
      · rw [hstep]
        intro h
        cases h
      · rw [hstep]
        exact ih _ (separated_relax hr failed) (exact_relax hr hexact hsat.toBlames hfailed)
          (by omega)
      · exact absurd hstep (step_ne_unknown hr hsat)

end Relaxation

-- Each round raises the cost by at least one and never above the optimum, which the total weight
-- bounds.
theorem Problem.maximize_of_satisfiable {problem : Problem} (hwithin : problem.isWithin = true)
    {sat : Procedure} (hsat : sat.Sound) {valuation : Valuation}
    (hvaluation : Satisfies valuation problem.hard) :
    ∃ best cost, problem.maximize sat = .optimal best cost ∧
      (Optimum.optimal best cost).Answers problem := by
  have hr := Relaxation.separated_start hwithin
  have hexact := Relaxation.exact_start problem
  have hanswers := Relaxation.run_answers hsat.toHonest (problem.totalWeight + 1) _ hr hexact
  have hfuel : problem.costOf valuation <
      (Relaxation.start problem).cost + (problem.totalWeight + 1) := by
    have hle := problem.costOf_le_totalWeight valuation
    omega
  have hknown := Relaxation.run_ne_unknown hsat hvaluation _ _ hr hexact hfuel
  rw [maximize]
  cases hrun : Relaxation.run sat (problem.totalWeight + 1) (Relaxation.start problem) with
  | optimal best cost => exact ⟨best, cost, rfl, hrun ▸ hanswers⟩
  | unsatisfiable =>
      rw [hrun] at hanswers
      exact absurd hvaluation (hanswers valuation)
  | unknown => exact absurd hrun hknown

-- Without values for the hard clauses no soft clause is blamed, and the first step is the last.
theorem Problem.maximize_of_unsatisfiable {problem : Problem} (hwithin : problem.isWithin = true)
    {sat : Procedure} (hsat : sat.Sound) (hfair : sat.Fair ∨ problem.soft = [])
    (hnone : ∀ valuation, ¬Satisfies valuation problem.hard) :
    problem.maximize sat = .unsatisfiable := by
  have hr := Relaxation.separated_start hwithin
  have hzero := Relaxation.nonZero_clauses hr
  have hne := Relaxation.assumptions_ne_zero hr
  have hclauses : ∀ valuation, ¬Satisfies valuation (Relaxation.start problem).clauses :=
    fun valuation h => hnone valuation ((satisfies_append _ _ _).mp h).1
  have hstep : (Relaxation.start problem).step sat = .error .unsatisfiable := by
    cases hverdict : sat (Relaxation.start problem).clauses (Relaxation.start problem).assumptions with
    | sat valuation => exact absurd (hsat.sat_holds hzero hne hverdict).1 (hclauses valuation)
    | unsat failed =>
        rcases hfair with hfair | hsoft
        · have hempty := hfair hzero hne hverdict hclauses
          simp [Relaxation.step, hverdict, hempty, Relaxation.isFailed]
        · have hempty : (Relaxation.start problem).softs = [] := by simp [Relaxation.start, hsoft]
          simp [Relaxation.step, hverdict, hempty]
    | unknown => exact absurd hverdict (hsat.decided hzero hne)
  change Relaxation.run sat (problem.totalWeight + 1) (Relaxation.start problem) = _
  simp only [Relaxation.run, hstep]

-- Whatever cores the procedure finds, wherever it gives up and however long the search is allowed
-- to go on, what it answers is right.
theorem Problem.maximize_answers (problem : Problem) (hwithin : problem.isWithin = true)
    (sat : Procedure) (hsat : sat.Honest) :
    (problem.maximize sat).Answers problem ∧
      ∀ steps, (Relaxation.run sat steps (Relaxation.start problem)).Answers problem := by
  have hrun := fun steps => Relaxation.run_answers hsat steps _
    (Relaxation.separated_start hwithin) (Relaxation.exact_start problem)
  exact ⟨hrun _, hrun⟩

def oneOfThree : Problem where
  count := 3
  hard := [[-1, -2], [-1, -3], [-2, -3]]
  soft := [([1], 5), ([2], 4), ([3], 4), ([1, 2], 0)]

theorem oneOfThree_maximize_answers :
    oneOfThree.isWithin = true ∧ Procedure.Honest bySearch ∧
      (match oneOfThree.maximize bySearch with
        | .optimal _ cost => cost == 8
        | _ => false) = true ∧
      (oneOfThree.maximize bySearch).Answers oneOfThree := by
  have hwithin : oneOfThree.isWithin = true := by decide
  refine ⟨hwithin, bySearch_sound.toHonest, by decide +kernel, ?_⟩
  exact (oneOfThree.maximize_answers hwithin bySearch bySearch_sound.toHonest).1

end Qualify.Sat
