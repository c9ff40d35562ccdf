import Mathlib.Algebra.Order.BigOperators.Group.List
import Mathlib.Algebra.Order.Group.Nat
import Mathlib.Data.List.Sort
import Qualify.Proofs.Sat.Core
import Qualify.Proofs.Sat.Optimum

namespace Qualify.Sat

def Agreeable (clauses : List Clause) (assumptions : List Literal) (valuation : Valuation) : Prop :=
  Satisfies valuation clauses ∧ ∀ l ∈ assumptions, Literal.holds valuation l = true

open Classical in
-- A procedure that prefers values equal to given ones on the variables up to `count`.
noncomputable def following (count : Nat) (target : Valuation) : Procedure :=
  fun clauses assumptions =>
    if h : ∃ valuation, Agreeable clauses assumptions valuation ∧
        ∀ n ≤ count, valuation n = target n then .sat h.choose
    else if h : ∃ valuation, Agreeable clauses assumptions valuation then .sat h.choose
    else if ∃ valuation, Satisfies valuation clauses then .unsat assumptions
    else .unsat []

section Following

variable {count : Nat} {target : Valuation} {clauses : List Clause} {assumptions : List Literal}

theorem following_eq_sat
    (h : ∃ valuation, Agreeable clauses assumptions valuation ∧
      ∀ n ≤ count, valuation n = target n) :
    ∃ valuation, following count target clauses assumptions = .sat valuation ∧
      ∀ n ≤ count, valuation n = target n := by
  refine ⟨h.choose, ?_, h.choose_spec.2⟩
  unfold following
  rw [dif_pos h]

theorem following_sat {valuation : Valuation}
    (h : following count target clauses assumptions = .sat valuation) :
    Agreeable clauses assumptions valuation := by
  unfold following at h
  split at h
  · rename_i hexists
    cases h
    exact hexists.choose_spec.1
  · split at h
    · rename_i hexists
      cases h
      exact hexists.choose_spec
    · split at h <;> cases h

-- The blame is all or nothing: every assumption if the clauses alone can be met, none otherwise.
theorem following_unsat {failed : List Literal}
    (h : following count target clauses assumptions = .unsat failed) :
    (∀ valuation, ¬Agreeable clauses assumptions valuation) ∧
      (failed = assumptions ∧ (∃ valuation, Satisfies valuation clauses) ∨
        failed = [] ∧ ∀ valuation, ¬Satisfies valuation clauses) := by
  unfold following at h
  split at h
  · cases h
  · split at h
    · cases h
    · rename_i hnone
      refine ⟨not_exists.mp hnone, ?_⟩
      split at h
      · rename_i hsat
        cases h
        exact .inl ⟨rfl, hsat⟩
      · rename_i hunsat
        cases h
        exact .inr ⟨rfl, not_exists.mp hunsat⟩

theorem following_sound : (following count target).Sound where
  decided _ _ h := by
    unfold following at h
    split at h
    · cases h
    · split at h
      · cases h
      · split at h <;> cases h
  sat_holds _ _ h := following_sat h
  failed_subset _ _ h := by
    rcases (following_unsat h).2 with ⟨rfl, -⟩ | ⟨rfl, -⟩
    · exact List.Subset.refl _
    · exact List.nil_subset _
  failed_conflict _ _ h valuation hclauses := by
    obtain ⟨hnone, ⟨rfl, -⟩ | ⟨-, hunsat⟩⟩ := following_unsat h
    · by_contra hall
      refine hnone valuation ⟨hclauses, fun l hl => ?_⟩
      by_contra hfalse
      exact hall ⟨l, hl, by simpa using hfalse⟩
    · exact absurd hclauses (hunsat valuation)

theorem following_fair : (following count target).Fair := by
  intro clauses assumptions failed _ _ h hunsat
  rcases (following_unsat h).2 with ⟨-, valuation, hvaluation⟩ | ⟨rfl, -⟩
  · exact absurd hvaluation (hunsat valuation)
  · rfl

end Following

namespace Relaxation

-- Optimal values of the problem can be extended to what the last step asks for.
theorem exists_agreeable {problem : Problem} {r : Relaxation} (hr : r.Separated problem)
    (hexact : r.Exact problem) {target : Valuation} (htarget : Satisfies target problem.hard)
    (hcost : problem.costOf target ≤ r.cost) :
    ∃ valuation, Agreeable r.clauses r.assumptions valuation ∧
      ∀ n ≤ problem.count, valuation n = target n := by
  obtain ⟨extended, hsame, hhard, hlower⟩ := hexact.lower target htarget
  have hliterals : ∀ soft ∈ r.softs, Clause.holds extended soft.literals = true := by
    intro soft hsoft
    have hpenalty : soft.penalty extended ≤ r.residual extended :=
      List.le_sum_of_mem (List.mem_map_of_mem hsoft)
    have hpos := hr.weight_pos soft hsoft
    by_contra hfalse
    rw [Soft.penalty, if_neg hfalse] at hpenalty
    omega
  refine ⟨r.withBlockers (fun _ => false) extended, ⟨?_, ?_⟩, fun n hn => ?_⟩
  · exact satisfies_clauses_withBlockers hr hhard fun soft hsoft _ => hliterals soft hsoft
  · intro l hl
    obtain ⟨soft, hsoft, rfl⟩ := List.mem_map.mp hl
    rw [holds_blocker hr hsoft, withBlockers_blocker _ _ hsoft]
    rfl
  · rw [withBlockers_eq, hsame n hn]
    intro soft hsoft heq
    have hrange := hr.blocker_range soft hsoft
    omega

-- The target stays agreeable until the bound reaches its cost, and then it is what the procedure
-- answers.
theorem run_following {problem : Problem} {target : Valuation}
    (htarget : Satisfies target problem.hard)
    (hleast : ∀ other, Satisfies other problem.hard →
      problem.costOf target ≤ problem.costOf other)
    (fuel : Nat) (r : Relaxation) (hr : r.Separated problem) (hexact : r.Exact problem)
    {best : Valuation} {cost : Nat}
    (hrun : run (following problem.count target) fuel r = .optimal best cost) :
    ∀ n ≤ problem.count, best n = target n := by
  induction fuel generalizing r with
  | zero => cases hrun
  | succ fuel ih =>
      simp only [run] at hrun
      cases hverdict : following problem.count target r.clauses r.assumptions with
      | sat valuation =>
          obtain ⟨hclauses, hassumptions⟩ := following_sat hverdict
          have hresidual := residual_eq_zero_of_sat hr hclauses hassumptions
          have hhard := ((satisfies_append _ _ _).mp hclauses).1
          obtain ⟨hproblem, hcost, -⟩ := answers_optimal hexact hhard hresidual
          -- What was found is optimal, so that the target meets the same clauses.
          obtain ⟨same, hsame, hagrees⟩ := following_eq_sat
            (exists_agreeable hr hexact htarget (hcost ▸ hleast valuation hproblem))
          cases hverdict.symm.trans hsame
          simp only [step, hverdict] at hrun
          cases hrun
          exact hagrees
      | unsat failed =>
          by_cases hany : r.softs.any (isFailed failed) = true
          · simp only [step, hverdict, hany, if_true] at hrun
            exact ih _ (separated_relax hr failed)
              (exact_relax hr hexact following_sound.toBlames hverdict) hrun
          · simp only [step, hverdict, hany] at hrun
            cases hrun
      | unknown =>
          exact absurd hverdict
            (following_sound.decided (nonZero_clauses hr) (assumptions_ne_zero hr))

end Relaxation

-- Which of the optimal values are found is up to the procedure: all of them can be.
theorem Problem.maximize_following {problem : Problem} (hwithin : problem.isWithin = true)
    {target : Valuation} (htarget : Satisfies target problem.hard)
    (hleast : ∀ other, Satisfies other problem.hard →
      problem.costOf target ≤ problem.costOf other) :
    ∃ best cost, problem.maximize (following problem.count target) = .optimal best cost ∧
      ∀ n ≤ problem.count, best n = target n := by
  obtain ⟨best, cost, hmaximize, -⟩ :=
    Problem.maximize_of_satisfiable hwithin following_sound htarget
  exact ⟨best, cost, hmaximize, Relaxation.run_following htarget hleast _ _
    (Relaxation.separated_start hwithin) (Relaxation.exact_start problem) hmaximize⟩

-- A procedure that blames given assumptions where this is right, and else those that another
-- procedure blames.
def blaming (sat : Procedure) (core : List Literal) : Procedure := fun clauses assumptions =>
  match sat clauses assumptions with
  | .sat valuation => .sat valuation
  | .unsat failed =>
      if failed ≠ [] ∧ core ⊆ assumptions then
        match sat clauses core with
        | .unsat _ => .unsat core
        | _ => .unsat failed
      else .unsat failed
  | .unknown => .unknown

section Blaming

variable {sat : Procedure} {core : List Literal} {clauses : List Clause}
  {assumptions failed : List Literal}

theorem blaming_sat {valuation : Valuation}
    (h : blaming sat core clauses assumptions = .sat valuation) :
    sat clauses assumptions = .sat valuation := by
  unfold blaming at h
  split at h
  · rename_i hverdict
    exact hverdict.trans h
  · split at h
    · split at h <;> cases h
    · cases h
  · cases h

-- The prescribed core is blamed only where it is one: it is assumed, and the procedure itself
-- refutes it.
theorem blaming_unsat (h : blaming sat core clauses assumptions = .unsat failed) :
    sat clauses assumptions = .unsat failed ∨
      core ⊆ assumptions ∧ failed = core ∧ ∃ inner own, sat clauses core = .unsat inner ∧
        sat clauses assumptions = .unsat own ∧ own ≠ [] := by
  unfold blaming at h
  split at h
  · cases h
  · rename_i own hverdict
    split at h
    · rename_i hcore
      split at h
      · rename_i inner hinner
        cases h
        exact .inr ⟨hcore.2, rfl, inner, own, hinner, hverdict, hcore.1⟩
      · exact .inl (hverdict.trans h)
    · exact .inl (hverdict.trans h)
  · cases h

-- A core the procedure refutes contains a conflict, so that blaming all of it is sound too.
theorem blaming_sound (h : sat.Sound) : (blaming sat core).Sound where
  sat_holds hzero hne hsat := h.sat_holds hzero hne (blaming_sat hsat)
  decided hzero hne hunknown := by
    unfold blaming at hunknown
    split at hunknown
    · cases hunknown
    · split at hunknown
      · split at hunknown <;> cases hunknown
      · cases hunknown
    · rename_i hverdict
      exact h.decided hzero hne hverdict
  failed_subset hzero hne hunsat := by
    rcases blaming_unsat hunsat with hown | ⟨hsubset, rfl, -⟩
    · exact h.failed_subset hzero hne hown
    · exact hsubset
  failed_conflict hzero hne hunsat valuation hvaluation := by
    rcases blaming_unsat hunsat with hown | ⟨hsubset, rfl, inner, -, hinner, -⟩
    · exact h.failed_conflict hzero hne hown valuation hvaluation
    · have hne := fun l hl => hne l (hsubset hl)
      obtain ⟨l, hl, hfalse⟩ := h.failed_conflict hzero hne hinner valuation hvaluation
      exact ⟨l, h.failed_subset hzero hne hinner hl, hfalse⟩

theorem blaming_fair (h : sat.Fair) : (blaming sat core).Fair := by
  intro clauses assumptions failed hzero hne hunsat hnone
  rcases blaming_unsat hunsat with hown | ⟨-, -, -, own, -, hown, hsome⟩
  · exact h hzero hne hown hnone
  · exact absurd (h hzero hne hown hnone) hsome

end Blaming

namespace Selection

section Blaming

variable {selection : Selection} (hwithin : selection.isWithin = true) {sat : Procedure}
  (hsat : sat.Sound) {positions : List Nat} (h : selection.MinimalConflict positions)
include hwithin hsat h

-- With all clauses switched on, the given conflict is blamed.
theorem check_blaming_range :
    selection.check (blaming sat (positions.map selection.selector))
      (List.range selection.clauses.length) = .unsat (positions.map selection.selector) := by
  have hsubset : positions ⊆ List.range selection.clauses.length :=
    fun i hi => List.mem_range.mpr (h.inside i hi)
  have hunsat : ∀ others : List Nat, positions ⊆ others →
      ∃ failed, selection.check sat others = .unsat failed := by
    intro others hothers
    rcases check_cases hwithin hsat.decides others with
      ⟨-, -, valuation, hvaluation⟩ | ⟨failed, hcheck, -⟩
    · exact absurd (satisfies_pick_of_subset hothers hvaluation) (h.conflict valuation)
    · exact ⟨failed, hcheck⟩
  obtain ⟨failed, hfailed⟩ := hunsat _ hsubset
  obtain ⟨inner, hinner⟩ := hunsat positions (List.Subset.refl _)
  -- No clause has to hold when all are switched off, so the clauses alone are not to blame.
  have hsome : failed ≠ [] := by
    rintro rfl
    have hnothing : Satisfies (fun _ => false) (selection.pick []) := satisfies_nil _
    obtain ⟨l, hl, -⟩ := hsat.failed_conflict (nonZero_guarded hwithin)
      (selection.selectors_ne_zero _) hfailed _ (satisfies_guarded_switchOn hwithin hnothing)
    cases hl
  unfold check at hfailed hinner ⊢
  unfold blaming
  rw [hfailed]
  dsimp only
  rw [if_pos ⟨hsome, List.map_subset _ hsubset⟩, hinner]

-- Any conflict from which no clause can be missing may be the one that is found.
theorem minimalSubset_blaming :
    selection.minimalSubset (blaming sat (positions.map selection.selector)) =
      .minimal positions := by
  have hkeep : selection.keep (positions.map selection.selector)
      (List.range selection.clauses.length) = positions := by
    refine (List.pairwise_lt_range.sublist (selection.keep_sublist _ _)).eq_of_mem_iff h.increasing
      fun i => ?_
    rw [mem_keep, List.mem_map_of_injective selection.selector_injective]
    exact and_iff_right_of_imp fun hi => List.mem_range.mpr (h.inside i hi)
  simp only [minimalSubset]
  rw [check_blaming_range hwithin hsat h]
  dsimp only
  rw [hkeep, minimize_of_minimalConflict hwithin (blaming_sound hsat).decides h]

end Blaming

end Selection

end Qualify.Sat
