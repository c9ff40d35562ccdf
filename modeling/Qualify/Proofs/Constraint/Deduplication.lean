import Qualify.Proofs.Clause.Shape
import Qualify.Proofs.Constraint.Store
import Qualify.Solution.Verify

namespace Qualify

namespace Solution

variable {solution : Solution} {registry : Registry}

theorem toOption_holdsAll_congr {parts others : List Constraint}
    (h : List.Forall₂ (fun c d : Constraint =>
      (solution.holds registry c).toOption = (solution.holds registry d).toOption) parts others) :
    (solution.holdsAll registry parts).toOption =
      (solution.holdsAll registry others).toOption := by
  induction h with
  | nil => rfl
  | cons hfirst _ ih =>
      rw [holdsAll, holdsAll, Except.toOption_bind, Except.toOption_bind, hfirst]
      refine Option.bind_congr fun verdict _ => ?_
      cases verdict with
      | true => exact ih
      | false => rfl

-- The check may fail in another way when the operands of a relation change places, but it does
-- not succeed with another answer.
theorem toOption_holds_of_same {c d : Constraint} (h : c.same d = true) :
    (solution.holds registry c).toOption = (solution.holds registry d).toOption := by
  refine Constraint.same_induction (motive := fun c d =>
    (solution.holds registry c).toOption = (solution.holds registry d).toOption)
    rfl rfl ?_ ?_ ?_ ?_ ?_ ?_ h
  · exact fun _ _ _ _ _ => rfl
  · intro kind first second location location' hsymmetric
    simp only [holds, Except.toOption_bind]
    rw [Option.bind_comm]
    refine Option.bind_congr fun b _ => Option.bind_congr fun a _ => ?_
    rw [Relation.holds_comm hsymmetric]
  · exact fun _ _ _ _ _ _ => rfl
  · exact fun _ _ _ _ _ _ _ _ => rfl
  · intro potential present present' absent absent' location location' hpresent habsent
    rw [holds, holds, Except.toOption_bind, Except.toOption_bind, toOption_holdsAll_congr hpresent]
    refine Option.bind_congr fun verdict _ => ?_
    cases verdict with
    | true => rfl
    | false => exact toOption_holdsAll_congr habsent
  · intro assumptions assumptions' conclusion conclusion' location location' hassumptions
      hconclusion
    rw [holds, holds, Except.toOption_bind, Except.toOption_bind,
      toOption_holdsAll_congr hassumptions]
    refine Option.bind_congr fun verdict _ => ?_
    cases verdict with
    | true => exact hconclusion
    | false => rfl

end Solution

namespace Interpretation

variable {interpretation : Interpretation} {registry : Registry}

theorem evalAll_congr {parts others : List Constraint}
    (h : List.Forall₂ (fun c d : Constraint =>
      interpretation.eval registry c = interpretation.eval registry d) parts others) :
    interpretation.evalAll registry parts = interpretation.evalAll registry others := by
  induction h with
  | nil => rfl
  | cons hfirst _ ih => rw [evalAll, evalAll, hfirst, ih]

theorem eval_of_same {c d : Constraint} (h : c.same d = true) :
    interpretation.eval registry c = interpretation.eval registry d := by
  refine Constraint.same_induction (motive := fun c d =>
    interpretation.eval registry c = interpretation.eval registry d) rfl rfl ?_ ?_ ?_ ?_ ?_ ?_ h
  · exact fun _ _ _ _ _ => rfl
  · intro kind first second location location' hsymmetric
    rw [eval, eval, Relation.holds_comm hsymmetric]
  · exact fun _ _ _ _ _ _ => rfl
  · exact fun _ _ _ _ _ _ _ _ => rfl
  · intro potential present present' absent absent' location location' hpresent habsent
    rw [eval, eval, evalAll_congr hpresent, evalAll_congr habsent]
  · intro assumptions assumptions' conclusion conclusion' location location' hassumptions
      hconclusion
    rw [eval, eval, evalAll_congr hassumptions, hconclusion]

end Interpretation

namespace Constraint

def Fulfilled (registry : Registry) (numbering : Numbering) (valuation : Valuation)
    (c : Constraint) : Prop :=
  ∃ clauses, clausesWith registry numbering c = .ok clauses ∧ Satisfies valuation clauses

theorem Fulfilled.of_same {registry : Registry} {numbering : Numbering} {valuation : Valuation}
    {c d : Constraint} (h : c.same d = true) (hc : c.Fulfilled registry numbering valuation) :
    d.Fulfilled registry numbering valuation := by
  obtain ⟨cs, hcs, hsat⟩ := hc
  obtain ⟨ds, hds, halike⟩ := exists_clausesWith_alike h hcs
  exact ⟨ds, hds, (halike valuation).satisfies_iff.mp hsat⟩

theorem isSoft_congr {c d : Constraint} (h : c.same d = true) : c.isSoft = d.isSoft := by
  refine same_induction (motive := fun c d => c.isSoft = d.isSoft) rfl rfl ?_ ?_ ?_ ?_ ?_ ?_ h
  all_goals intros; rfl

theorem isStorable_or (c : Constraint) :
    c = alwaysTrue ∨ c = alwaysFalse ∨ c.isStorable = true := by
  cases c <;> simp [isStorable, isAlwaysTrue, isAlwaysFalse]

def ForallHard (P : Constraint → Prop) (constraints : List Constraint) : Prop :=
  ∀ c ∈ constraints, c.isSoft = false → P c

end Constraint

namespace ConstraintStore

open Constraint

def accepted (added : List Constraint) (answers : List (Except ConstraintError Bool)) :
    List Constraint :=
  ((added.zip answers).filter (·.2.isOk)).map (·.1)

theorem isOk_add (store : ConstraintStore) (c : Constraint) :
    (store.add c).1.isOk = !c.isAlwaysFalse := by
  rcases add_cases store c with ⟨-, heq⟩ | ⟨hstorable, -, heq⟩ | ⟨hstorable, i, -, heq⟩
  · rw [heq]
    cases c <;> rfl
  · rw [heq, isAlwaysFalse_of_isStorable hstorable]
    rfl
  · rw [heq, isAlwaysFalse_of_isStorable hstorable]
    rfl

theorem accepted_addAll (store : ConstraintStore) (added : List Constraint) :
    accepted added (store.addAll added).1 = added.filter (!·.isAlwaysFalse) := by
  induction added generalizing store with
  | nil => rfl
  | cons c rest ih =>
      rw [List.filter_cons, ← isOk_add store c, ← ih (store.add c).2]
      simp only [accepted, addAll, List.zip_cons_cons, List.filter_cons]
      split <;> rfl

section Records

variable {added : List Constraint} {store : ConstraintStore} (h : Records added store)
  {c : Constraint}
include h

theorem Records.exists_stored (hc : c ∈ added) (hstorable : c.isStorable = true) :
    ∃ stored ∈ store.constraints.toList, stored.same c = true := by
  have hsome : (store.position? c).isSome = true := by
    rw [h.isSome_position? c hstorable, List.any_eq_true]
    exact ⟨c, hc, same_refl c⟩
  obtain ⟨i, hi⟩ := Option.isSome_iff_exists.mp hsome
  obtain ⟨stored, hstored, hsame⟩ := (h.position?_eq_some c i).mp hi
  exact ⟨stored, Array.mem_toList_iff.mpr (Array.mem_of_getElem? hstored), hsame⟩

theorem Records.exists_added (hc : c ∈ store.constraints.toList) :
    ∃ first ∈ added, first.isStorable = true ∧ first.same c = true := by
  obtain ⟨i, hi⟩ := Array.getElem?_of_mem (Array.mem_toList_iff.mp hc)
  have hlt := (Array.getElem?_eq_some_iff.mp hi).1
  rw [h.size_eq] at hlt
  have hfirst := List.getElem?_eq_getElem hlt
  have hsame := (h.stands i _ c hfirst hi).same
  exact ⟨_, mem_of_mem_firsts (List.mem_of_getElem? hfirst),
    isStorable_of_mem_firsts (List.mem_of_getElem? hfirst), hsame⟩

-- Nothing gets lost that does not tell constraints apart that are the same.
theorem Records.forall_stored_iff {P : Constraint → Prop} (htrue : P .alwaysTrue)
    (hsame : ∀ c d : Constraint, c.same d = true → P c → P d) :
    (∀ c ∈ store.constraints.toList, P c) ↔ ∀ c ∈ added.filter (!·.isAlwaysFalse), P c := by
  constructor
  · intro hstored c hc
    obtain ⟨hc, hfalse⟩ := List.mem_filter.mp hc
    rcases isStorable_or c with rfl | rfl | hstorable
    · exact htrue
    · cases hfalse
    · obtain ⟨stored, hmem, hstored'⟩ := h.exists_stored hc hstorable
      exact hsame stored c hstored' (hstored stored hmem)
  · intro hadded c hc
    obtain ⟨first, hmem, hstorable, hfirst⟩ := h.exists_added hc
    refine hsame first c hfirst (hadded first (List.mem_filter.mpr ⟨hmem, ?_⟩))
    rw [isAlwaysFalse_of_isStorable hstorable, Bool.not_false]

end Records

theorem forallHard_stored_iff {P : Constraint → Prop} (htrue : P .alwaysTrue)
    (hsame : ∀ c d : Constraint, c.same d = true → P c → P d) {added : List Constraint}
    {answers : List (Except ConstraintError Bool)} {store : ConstraintStore}
    (h : empty.addAll added = (answers, store)) :
    ForallHard P store.constraints.toList ↔ ForallHard P (accepted added answers) := by
  have hanswers : accepted added answers = added.filter (!·.isAlwaysFalse) := by
    rw [← accepted_addAll empty added, h]
  have hrecords := records_addAll added
  rw [h] at hrecords
  rw [hanswers]
  refine hrecords.forall_stored_iff (fun _ => htrue) fun c d hcd hc hsoft => ?_
  exact hsame c d hcd (hc ((isSoft_congr hcd).trans hsoft))

-- Constraints that are the same mean the same, whether a solution is checked or an interpretation
-- read or clauses are satisfied, and so a store that keeps one of them asks for all that was added.
theorem deduplication_preserves_meaning (registry : Registry) :
    (∀ c d : Constraint, c.same d = true →
      (∀ solution : Solution,
        (solution.holds registry c).toOption = (solution.holds registry d).toOption) ∧
      (∀ interpretation : Interpretation,
        interpretation.eval registry c = interpretation.eval registry d) ∧
      ∀ (numbering after : Numbering) (cs : List Clause),
        c.clauses registry numbering = (.ok cs, after) →
          ∃ ds, d.clauses registry numbering = (.ok ds, after) ∧
            ∀ valuation, Satisfies valuation cs ↔ Satisfies valuation ds) ∧
    ∀ (added : List Constraint) (answers : List (Except ConstraintError Bool))
      (store : ConstraintStore), empty.addAll added = (answers, store) →
      (∀ solution : Solution,
        ForallHard (fun c => solution.holds registry c = .ok true) store.constraints.toList ↔
          ForallHard (fun c => solution.holds registry c = .ok true) (accepted added answers)) ∧
      (∀ interpretation : Interpretation,
        ForallHard (fun c => interpretation.eval registry c = true) store.constraints.toList ↔
          ForallHard (fun c => interpretation.eval registry c = true) (accepted added answers)) ∧
      ∀ (numbering : Numbering) (valuation : Valuation),
        ForallHard (Fulfilled registry numbering valuation) store.constraints.toList ↔
          ForallHard (Fulfilled registry numbering valuation) (accepted added answers) := by
  constructor
  · intro c d hsame
    refine ⟨fun solution => Solution.toOption_holds_of_same hsame,
      fun interpretation => Interpretation.eval_of_same hsame, fun numbering after cs hcs => ?_⟩
    obtain ⟨hok, rfl⟩ := Prod.mk.inj hcs
    obtain ⟨ds, hds, halike⟩ := exists_clausesWith_alike hsame hok
    refine ⟨ds, ?_, fun valuation => (halike valuation).satisfies_iff⟩
    rw [clauses, ← usedPotentials_of_same hsame, hds]
  · intro added answers store h
    refine ⟨fun solution => forallHard_stored_iff ?_ ?_ h,
      fun interpretation => forallHard_stored_iff ?_ ?_ h,
      fun numbering valuation => forallHard_stored_iff ?_ ?_ h⟩
    · rfl
    · intro c d hsame hc
      rwa [← Except.toOption_eq_some, ← Solution.toOption_holds_of_same hsame,
        Except.toOption_eq_some]
    · rfl
    · intro c d hsame hc
      rwa [← Interpretation.eval_of_same hsame]
    · exact ⟨[], rfl, satisfies_nil valuation⟩
    · exact fun c d => Fulfilled.of_same

section Sample

open Registry

-- A tainted sink keeps the source apart from it. The operands of both relations stand the other
-- way round in the second constraint.
def separation : Constraint :=
  .implication
    [.existential sourceSlot [.relation .equality sinkSlot taintedSlot .missing] [] .missing]
    (.relation .inequality sourceSlot sinkSlot .missing) .missing

def separationTurned : Constraint :=
  .implication
    [.existential sourceSlot [.relation .equality taintedSlot sinkSlot .missing] [] .missing]
    (.relation .inequality sinkSlot sourceSlot .missing) .missing

theorem separation_deduplication_preserves_meaning :
    separation.same separationTurned = true ∧
      separation.clauses taint (.ofRegistry taint) =
        (.ok [[-7, -5, -7], [-7, -6, -8], [9, -5, -7], [9, -6, -8]], ⟨2, 8, [sourceSlot]⟩) ∧
      (∃ clauses, separationTurned.clauses taint (.ofRegistry taint) =
          (.ok clauses, ⟨2, 8, [sourceSlot]⟩) ∧
        ∀ valuation,
          Satisfies valuation [[-7, -5, -7], [-7, -6, -8], [9, -5, -7], [9, -6, -8]] ↔
            Satisfies valuation clauses) ∧
      empty.addAll [separation, .alwaysTrue, .alwaysFalse, separationTurned] =
        ([.ok true, .ok false, .error (.unsatisfiable "false" .missing), .ok false],
          ⟨#[separation], [(separation, 0)]⟩) ∧
      ∀ interpretation : Interpretation,
        ForallHard (fun c => interpretation.eval taint c = true) [separation] ↔
          ForallHard (fun c => interpretation.eval taint c = true)
            [separation, .alwaysTrue, separationTurned] := by
  have hsame : separation.same separationTurned = true := by decide
  have hclauses : separation.clauses taint (.ofRegistry taint) =
      (.ok [[-7, -5, -7], [-7, -6, -8], [9, -5, -7], [9, -6, -8]], ⟨2, 8, [sourceSlot]⟩) :=
    Prod.ext (Except.toOption_eq_some.mp (by decide)) rfl
  have hadded : empty.addAll [separation, .alwaysTrue, .alwaysFalse, separationTurned] =
      ([.ok true, .ok false, .error (.unsatisfiable "false" .missing), .ok false],
        ⟨#[separation], [(separation, 0)]⟩) := rfl
  have hmeaning := deduplication_preserves_meaning taint
  exact ⟨hsame, hclauses, (hmeaning.1 _ _ hsame).2.2 _ _ _ hclauses, hadded,
    (hmeaning.2 _ _ _ hadded).2.1⟩

end Sample

end ConstraintStore

end Qualify
