import Qualify.Sat.Basic

namespace Qualify.Sat

-- What is left of a clause during the search. The literals it has lost are false because of the
-- `reasons`, which are assumptions and decisions.
structure Tracked where
  literals : Clause
  reasons : List Literal
deriving DecidableEq, Repr

def merge (reasons others : List Literal) : List Literal :=
  reasons ++ others.filter fun l => !reasons.contains l

-- What is left once a literal is true for some reasons: clauses that hold it are met, and clauses
-- that hold its negation lose it.
def assign (l : Literal) (reasons : List Literal) : List Tracked → List Tracked
  | [] => []
  | ⟨literals, old⟩ :: rest =>
      if l ∈ literals then assign l reasons rest
      else if -l ∈ literals then
        ⟨literals.filter (· != -l), merge old reasons⟩ :: assign l reasons rest
      else ⟨literals, old⟩ :: assign l reasons rest

def literalCount : List Tracked → Nat
  | [] => 0
  | clause :: rest => clause.literals.length + literalCount rest

-- A shortest clause, the first of them.
def shortest? : List Tracked → Option Tracked
  | [] => none
  | clause :: rest =>
      match shortest? rest with
      | none => some clause
      | some other => if other.literals.length < clause.literals.length then some other else some clause

theorem shortest?_mem {clauses : List Tracked} {clause : Tracked}
    (h : shortest? clauses = some clause) : clause ∈ clauses := by
  induction clauses generalizing clause with
  | nil => simp [shortest?] at h
  | cons first rest ih =>
      simp only [shortest?] at h
      split at h
      · simp_all
      · rename_i other hother
        have hmem := ih hother
        split at h <;> simp_all

theorem length_filter_ne_lt {l : Literal} {literals : Clause} (h : l ∈ literals) :
    (literals.filter (· != l)).length < literals.length := by
  refine Nat.lt_of_le_of_ne (List.length_filter_le ..) fun heq => ?_
  have hall := List.length_filter_eq_length_iff.mp heq l h
  simp at hall

theorem literalCount_assign_le (l : Literal) (reasons : List Literal) (clauses : List Tracked) :
    literalCount (assign l reasons clauses) ≤ literalCount clauses := by
  induction clauses with
  | nil => simp [assign]
  | cons clause rest ih =>
      have hlen := List.length_filter_le (· != -l) clause.literals
      simp only [assign]
      split
      · simp only [literalCount]; omega
      · split <;> simp only [literalCount] <;> omega

-- A literal that occurs is used up, whether it is made true or false.
theorem literalCount_assign_lt {l m : Literal} {clauses : List Tracked} {clause : Tracked}
    (reasons : List Literal) (hmem : clause ∈ clauses) (hl : l ∈ clause.literals)
    (hm : m = l ∨ m = -l) : literalCount (assign m reasons clauses) < literalCount clauses := by
  induction clauses with
  | nil => simp at hmem
  | cons first rest ih =>
      have hrest := literalCount_assign_le m reasons rest
      have hlen := List.length_filter_le (· != -m) first.literals
      simp only [assign]
      rcases List.mem_cons.mp hmem with rfl | hmem
      · have hpos := List.length_pos_of_mem hl
        split
        · simp only [literalCount]; omega
        · rename_i hnot
          have hneg : -m = l := by
            rcases hm with rfl | rfl
            · exact absurd hl hnot
            · exact Int.neg_neg l
          have hlt := length_filter_ne_lt (hneg ▸ hl)
          rw [if_pos (hneg ▸ hl)]
          simp only [literalCount]
          rw [hneg] at hlt ⊢
          omega
      · have hlt := ih hmem
        split
        · simp only [literalCount]; omega
        · split <;> simp only [literalCount] <;> omega

-- Looks for literals that make all clauses hold, or for reasons why there are none. A clause of
-- one literal leaves no choice. If a decision fails for reasons that include it, the others are
-- reasons for its negation; if they do not include it, the negation would fail as well.
def search (clauses : List Tracked) : Except (List Literal) (List Literal) :=
  match _h : shortest? clauses with
  | none => .ok []
  | some ⟨[], reasons⟩ => .error reasons
  | some ⟨[l], reasons⟩ => (search (assign l reasons clauses)).map (l :: ·)
  | some ⟨l :: _ :: _, _⟩ =>
      match search (assign l [l] clauses) with
      | .ok literals => .ok (l :: literals)
      | .error reasons =>
          if l ∈ reasons then
            (search (assign (-l) (reasons.filter (· != l)) clauses)).map (-l :: ·)
          else .error reasons
termination_by literalCount clauses
decreasing_by
  · exact literalCount_assign_lt _ (shortest?_mem _h) (List.mem_cons_self ..) (.inl rfl)
  · exact literalCount_assign_lt _ (shortest?_mem _h) (List.mem_cons_self ..) (.inl rfl)
  · exact literalCount_assign_lt _ (shortest?_mem _h) (List.mem_cons_self ..) (.inr rfl)

-- An assumption is a clause of one literal that is its own reason.
def searchUnder (clauses : List Clause) (assumptions : List Literal) :
    Except (List Literal) (List Literal) :=
  search (assumptions.map (fun l => ⟨[l], [l]⟩) ++ clauses.map (⟨·, []⟩))

-- Leaves out one failed assumption after the other as long as the rest still cannot hold.
def shrink (clauses : List Clause) (needed : List Literal) : List Literal → List Literal
  | [] => needed
  | l :: rest =>
      match searchUnder clauses (needed ++ rest) with
      | .ok _ => shrink clauses (needed ++ [l]) rest
      | .error _ => shrink clauses needed rest

-- Decides by search. Variables that the search leaves open are false.
def bySearch : Procedure := fun clauses assumptions =>
  match searchUnder clauses assumptions with
  | .ok literals => .sat fun v => literals.contains (v : Int)
  | .error reasons => .unsat (shrink clauses [] reasons)

end Qualify.Sat
