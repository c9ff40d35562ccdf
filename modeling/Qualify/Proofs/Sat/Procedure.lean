import Qualify.Proofs.Clause.Satisfaction
import Qualify.Sat.Basic

namespace Qualify.Sat

namespace Procedure

-- The assumptions that a procedure blames cannot all hold together with the clauses. Nothing is
-- expected of it where zero stands for a literal.
structure Blames (sat : Procedure) : Prop where
  failed_subset : ∀ {clauses : List Clause} {assumptions failed : List Literal},
    NonZero clauses → (∀ l ∈ assumptions, l ≠ 0) → sat clauses assumptions = .unsat failed →
      failed ⊆ assumptions
  failed_conflict : ∀ {clauses : List Clause} {assumptions failed : List Literal},
    NonZero clauses → (∀ l ∈ assumptions, l ≠ 0) → sat clauses assumptions = .unsat failed →
      ∀ valuation, Satisfies valuation clauses → ∃ l ∈ failed, Literal.holds valuation l = false

-- The values found satisfy what was asked, too. The procedure may give up.
structure Honest (sat : Procedure) : Prop extends sat.Blames where
  sat_holds : ∀ {clauses : List Clause} {assumptions : List Literal} {valuation : Valuation},
    NonZero clauses → (∀ l ∈ assumptions, l ≠ 0) → sat clauses assumptions = .sat valuation →
      Satisfies valuation clauses ∧ ∀ l ∈ assumptions, Literal.holds valuation l = true

def NeverGivesUp (sat : Procedure) : Prop :=
  ∀ {clauses : List Clause} {assumptions : List Literal},
    NonZero clauses → (∀ l ∈ assumptions, l ≠ 0) → sat clauses assumptions ≠ .unknown

structure Sound (sat : Procedure) : Prop extends sat.Honest where
  decided : sat.NeverGivesUp

-- A procedure whose verdicts can be trusted, though nothing is known of the values it finds.
structure Decides (sat : Procedure) : Prop extends sat.Blames where
  satisfiable : ∀ {clauses : List Clause} {assumptions : List Literal} {valuation : Valuation},
    NonZero clauses → (∀ l ∈ assumptions, l ≠ 0) → sat clauses assumptions = .sat valuation →
      ∃ found, Satisfies found clauses ∧ ∀ l ∈ assumptions, Literal.holds found l = true
  decided : sat.NeverGivesUp

theorem Sound.decides {sat : Procedure} (h : sat.Sound) : sat.Decides where
  toBlames := h.toBlames
  satisfiable hzero hne hsat := ⟨_, h.sat_holds hzero hne hsat⟩
  decided := h.decided

def Fair (sat : Procedure) : Prop :=
  ∀ {clauses : List Clause} {assumptions failed : List Literal},
    NonZero clauses → (∀ l ∈ assumptions, l ≠ 0) → sat clauses assumptions = .unsat failed →
      (∀ valuation, ¬Satisfies valuation clauses) → failed = []

end Procedure

end Qualify.Sat
