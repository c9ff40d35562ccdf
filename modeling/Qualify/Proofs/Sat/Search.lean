import Qualify.Proofs.Except
import Qualify.Proofs.Sat.Procedure
import Qualify.Sat.Search

namespace Qualify.Sat

-- What a clause under way stands for: once its reasons hold, so does one of its literals.
def Tracked.Holds (valuation : Valuation) (clause : Tracked) : Prop :=
  (∀ l ∈ clause.reasons, Literal.holds valuation l = true) →
    Clause.holds valuation clause.literals = true

theorem mem_merge {l : Literal} {reasons others : List Literal} :
    l ∈ merge reasons others ↔ l ∈ reasons ∨ l ∈ others := by
  by_cases h : l ∈ reasons <;> simp [merge, h]

theorem mem_assign {l : Literal} {reasons : List Literal} {clauses : List Tracked} {c : Tracked} :
    c ∈ assign l reasons clauses ↔ ∃ old ∈ clauses, l ∉ old.literals ∧
      ((-l ∈ old.literals ∧ c = ⟨old.literals.filter (· != -l), merge old.reasons reasons⟩) ∨
        (-l ∉ old.literals ∧ c = old)) := by
  induction clauses with
  | nil => simp [assign]
  | cons first rest ih =>
      simp only [assign, List.exists_mem_cons_iff, ← ih]
      by_cases hl : l ∈ first.literals
      · simp [hl]
      · by_cases hneg : -l ∈ first.literals <;> simp [hl, hneg]

-- Neither the literal nor its negation is left once it is decided.
theorem notMem_of_mem_assign {l : Literal} {reasons : List Literal} {clauses : List Tracked}
    {c : Tracked} (hc : c ∈ assign l reasons clauses) : l ∉ c.literals ∧ -l ∉ c.literals := by
  obtain ⟨old, hold, hl, ⟨hneg, rfl⟩ | ⟨hneg, rfl⟩⟩ := mem_assign.mp hc
  · simp only [List.mem_filter]
    exact ⟨fun h => hl h.1, fun h => by simp at h⟩
  · exact ⟨hl, hneg⟩

theorem mem_of_mem_assign {l m : Literal} {reasons : List Literal} {clauses : List Tracked}
    {c : Tracked} (hc : c ∈ assign l reasons clauses) (hm : m ∈ c.literals) :
    ∃ old ∈ clauses, m ∈ old.literals := by
  obtain ⟨old, hold, _, ⟨_, rfl⟩ | ⟨_, rfl⟩⟩ := mem_assign.mp hc
  · exact ⟨old, hold, (List.mem_filter.mp hm).1⟩
  · exact ⟨_, hold, hm⟩

theorem mem_reasons_of_mem_assign {l m : Literal} {reasons : List Literal}
    {clauses : List Tracked} {c : Tracked} (hc : c ∈ assign l reasons clauses)
    (hm : m ∈ c.reasons) : (∃ old ∈ clauses, m ∈ old.reasons) ∨ m ∈ reasons := by
  obtain ⟨old, hold, _, ⟨_, rfl⟩ | ⟨_, rfl⟩⟩ := mem_assign.mp hc
  · rcases mem_merge.mp hm with hm | hm
    · exact .inl ⟨old, hold, hm⟩
    · exact .inr hm
  · exact .inl ⟨_, hold, hm⟩

theorem nonZero_assign {l : Literal} {reasons : List Literal} {clauses : List Tracked}
    (hzero : NonZero (clauses.map (·.literals))) :
    NonZero ((assign l reasons clauses).map (·.literals)) := by
  simp only [NonZero, List.forall_mem_map] at hzero ⊢
  intro c hc m hm
  obtain ⟨old, hold, hmem⟩ := mem_of_mem_assign hc hm
  exact hzero old hold m hmem

-- The clauses that are left say no more than the old ones, given why the literal holds.
theorem holds_assign {l : Literal} {reasons : List Literal} {clauses : List Tracked}
    {valuation : Valuation} (hl : l ≠ 0)
    (hreasons : (∀ m ∈ reasons, Literal.holds valuation m = true) → Literal.holds valuation l = true)
    (hclauses : ∀ c ∈ clauses, c.Holds valuation) :
    ∀ c ∈ assign l reasons clauses, c.Holds valuation := by
  intro c hc
  obtain ⟨old, hold, _, ⟨_, rfl⟩ | ⟨_, rfl⟩⟩ := mem_assign.mp hc
  · intro hall
    have hholds := hclauses old hold fun m hm => hall m (mem_merge.mpr (.inl hm))
    have htrue := hreasons fun m hm => hall m (mem_merge.mpr (.inr hm))
    obtain ⟨m, hm, hmholds⟩ := (Clause.holds_iff _ _).mp hholds
    have hne : m ≠ -l := by
      rintro rfl
      rw [Literal.holds_neg valuation hl, htrue] at hmholds
      cases hmholds
    exact (Clause.holds_iff _ _).mpr ⟨m, List.mem_filter.mpr ⟨hm, by simpa using hne⟩, hmholds⟩
  · exact hclauses _ hold

-- Literals that cover what is left cover everything together with the one that was decided.
theorem covers_of_assign {l : Literal} {reasons literals : List Literal} {clauses : List Tracked}
    (hcover : ∀ c ∈ assign l reasons clauses, ∃ m ∈ c.literals, m ∈ literals) :
    ∀ c ∈ clauses, ∃ m ∈ c.literals, m ∈ l :: literals := by
  intro c hc
  by_cases hl : l ∈ c.literals
  · exact ⟨l, hl, List.mem_cons_self⟩
  · by_cases hneg : -l ∈ c.literals
    · obtain ⟨m, hm, hmem⟩ := hcover _ (mem_assign.mpr ⟨c, hc, hl, .inl ⟨hneg, rfl⟩⟩)
      exact ⟨m, (List.mem_filter.mp hm).1, List.mem_cons_of_mem _ hmem⟩
    · obtain ⟨m, hm, hmem⟩ := hcover _ (mem_assign.mpr ⟨c, hc, hl, .inr ⟨hneg, rfl⟩⟩)
      exact ⟨m, hm, List.mem_cons_of_mem _ hmem⟩

theorem shortest?_eq_none {clauses : List Tracked} (h : shortest? clauses = none) :
    clauses = [] := by
  cases clauses with
  | nil => rfl
  | cons first rest =>
      simp only [shortest?] at h
      split at h
      · cases h
      · split at h <;> cases h

-- Along the search: assigning a literal removes exactly the clauses it covers.
theorem search_ok_covers (clauses : List Tracked) (literals : List Literal) :
    search clauses = .ok literals → ∀ c ∈ clauses, ∃ l ∈ c.literals, l ∈ literals := by
  fun_induction search clauses generalizing literals with
  | case1 clauses hnone =>
      rw [shortest?_eq_none hnone]
      intro _ c hc
      cases hc
  | case2 => intro h; cases h
  | case3 clauses l reasons hshort ih =>
      intro h
      obtain ⟨rest, hrest, rfl⟩ := Except.map_eq_ok.mp h
      exact covers_of_assign (ih rest hrest)
  | case4 clauses l head tail reasons hshort found hfound ih =>
      intro h
      cases h
      exact covers_of_assign (ih found hfound)
  | case5 clauses l head tail old hshort reasons herror hmem ih₁ ih₂ =>
      intro h
      obtain ⟨rest, hrest, rfl⟩ := Except.map_eq_ok.mp h
      exact covers_of_assign (ih₂ rest hrest)
  | case6 => intro h; cases h

-- The search only decides variables that occur.
theorem search_ok_occurs (clauses : List Tracked) (literals : List Literal) :
    search clauses = .ok literals →
      ∀ l ∈ literals, ∃ c ∈ clauses, l ∈ c.literals ∨ -l ∈ c.literals := by
  have hassign : ∀ {l : Literal} {reasons rest : List Literal} {clauses : List Tracked},
      (∀ m ∈ rest, ∃ c ∈ assign l reasons clauses, m ∈ c.literals ∨ -m ∈ c.literals) →
      ∀ m ∈ rest, ∃ c ∈ clauses, m ∈ c.literals ∨ -m ∈ c.literals := by
    intro l reasons rest clauses h m hm
    obtain ⟨c, hc, hmem | hmem⟩ := h m hm
    · obtain ⟨old, hold, hin⟩ := mem_of_mem_assign hc hmem
      exact ⟨old, hold, .inl hin⟩
    · obtain ⟨old, hold, hin⟩ := mem_of_mem_assign hc hmem
      exact ⟨old, hold, .inr hin⟩
  fun_induction search clauses generalizing literals with
  | case1 clauses hnone => intro h; cases h; simp
  | case2 => intro h; cases h
  | case3 clauses l reasons hshort ih =>
      intro h
      obtain ⟨rest, hrest, rfl⟩ := Except.map_eq_ok.mp h
      exact List.forall_mem_cons.mpr
        ⟨⟨_, shortest?_mem hshort, .inl List.mem_cons_self⟩, hassign (ih rest hrest)⟩
  | case4 clauses l head tail reasons hshort found hfound ih =>
      intro h
      cases h
      exact List.forall_mem_cons.mpr
        ⟨⟨_, shortest?_mem hshort, .inl List.mem_cons_self⟩, hassign (ih found hfound)⟩
  | case5 clauses l head tail old hshort reasons herror hmem ih₁ ih₂ =>
      intro h
      obtain ⟨rest, hrest, rfl⟩ := Except.map_eq_ok.mp h
      refine List.forall_mem_cons.mpr ⟨⟨_, shortest?_mem hshort, .inr ?_⟩, hassign (ih₂ rest hrest)⟩
      rw [Int.neg_neg]
      exact List.mem_cons_self
  | case6 => intro h; cases h

def Consistent (literals : List Literal) : Prop :=
  ∀ l ∈ literals, -l ∉ literals

-- Once assigned, a variable occurs in no clause that is left, so that it is not assigned again.
theorem consistent_cons {l : Literal} {literals reasons : List Literal} {clauses : List Tracked}
    (hl : l ≠ 0) (hconsistent : Consistent literals)
    (hoccurs : ∀ m ∈ literals, ∃ c ∈ assign l reasons clauses, m ∈ c.literals ∨ -m ∈ c.literals) :
    Consistent (l :: literals) := by
  have hneg : -l ∉ literals := by
    intro hmem
    obtain ⟨c, hc, hin | hin⟩ := hoccurs _ hmem
    · exact (notMem_of_mem_assign hc).2 hin
    · rw [Int.neg_neg] at hin
      exact (notMem_of_mem_assign hc).1 hin
  intro m hm hmneg
  rcases List.mem_cons.mp hm with rfl | hm
  · rcases List.mem_cons.mp hmneg with heq | hmem
    · exact Literal.neg_ne_self hl heq
    · exact hneg hmem
  · rcases List.mem_cons.mp hmneg with heq | hmem
    · rw [← heq, Int.neg_neg] at hneg
      exact hneg hm
    · exact hconsistent m hm hmem

-- Along the search, with `search_ok_occurs` saying what the rest of the assignment can be about.
theorem search_ok_consistent (clauses : List Tracked) (literals : List Literal)
    (hzero : NonZero (clauses.map (·.literals))) :
    search clauses = .ok literals → Consistent literals := by
  have hne : ∀ {clauses : List Tracked} {l : Literal} {tail reasons : List Literal},
      NonZero (clauses.map (·.literals)) → shortest? clauses = some ⟨l :: tail, reasons⟩ → l ≠ 0 := by
    intro clauses l tail reasons hzero hshort
    exact hzero _ (List.mem_map_of_mem (shortest?_mem hshort)) l List.mem_cons_self
  fun_induction search clauses generalizing literals with
  | case1 clauses hnone => intro h; cases h; simp [Consistent]
  | case2 => intro h; cases h
  | case3 clauses l reasons hshort ih =>
      intro h
      obtain ⟨rest, hrest, rfl⟩ := Except.map_eq_ok.mp h
      exact consistent_cons (hne hzero hshort) (ih rest (nonZero_assign hzero) hrest)
        (search_ok_occurs _ _ hrest)
  | case4 clauses l head tail reasons hshort found hfound ih =>
      intro h
      cases h
      exact consistent_cons (hne hzero hshort) (ih found (nonZero_assign hzero) hfound)
        (search_ok_occurs _ _ hfound)
  | case5 clauses l head tail old hshort reasons herror hmem ih₁ ih₂ =>
      intro h
      obtain ⟨rest, hrest, rfl⟩ := Except.map_eq_ok.mp h
      exact consistent_cons (Int.neg_ne_zero.mpr (hne hzero hshort))
        (ih₂ rest (nonZero_assign hzero) hrest) (search_ok_occurs _ _ hrest)
  | case6 => intro h; cases h

-- Only reasons that were given at the start are given for a failure.
theorem search_error_reasons (clauses : List Tracked) (reasons : List Literal) :
    search clauses = .error reasons → ∀ l ∈ reasons, ∃ c ∈ clauses, l ∈ c.reasons := by
  fun_induction search clauses generalizing reasons with
  | case1 => intro h; cases h
  | case2 clauses old hshort =>
      intro h
      cases h
      exact fun l hl => ⟨_, shortest?_mem hshort, hl⟩
  | case3 clauses l old hshort ih =>
      intro h m hm
      obtain ⟨c, hc, hmem⟩ := ih reasons (Except.map_eq_error.mp h) m hm
      rcases mem_reasons_of_mem_assign hc hmem with hold | hold
      · exact hold
      · exact ⟨_, shortest?_mem hshort, hold⟩
  | case4 => intro h; cases h
  | case5 clauses l head tail old hshort first herror hmem ih₁ ih₂ =>
      intro h m hm
      obtain ⟨c, hc, hin⟩ := ih₂ reasons (Except.map_eq_error.mp h) m hm
      rcases mem_reasons_of_mem_assign hc hin with hold | hold
      · exact hold
      · have hfirst := List.mem_filter.mp hold
        obtain ⟨c', hc', hin'⟩ := ih₁ first herror m hfirst.1
        refine (mem_reasons_of_mem_assign hc' hin').resolve_right fun hl => ?_
        rw [List.mem_singleton.mp hl] at hfirst
        simp at hfirst
  | case6 clauses l head tail old hshort first herror hmem ih =>
      intro h m hm
      cases h
      obtain ⟨c, hc, hin⟩ := ih first herror m hm
      refine (mem_reasons_of_mem_assign hc hin).resolve_right fun hl => ?_
      exact hmem (List.mem_singleton.mp hl ▸ hm)

-- The reasons for a failure cannot all hold where the clauses do.
theorem search_error_conflict (clauses : List Tracked) (reasons : List Literal)
    (hzero : NonZero (clauses.map (·.literals))) (valuation : Valuation) :
    search clauses = .error reasons → (∀ c ∈ clauses, c.Holds valuation) →
      ∃ l ∈ reasons, Literal.holds valuation l = false := by
  fun_induction search clauses generalizing reasons with
  | case1 => intro h; cases h
  | case2 clauses old hshort =>
      intro h hclauses
      cases h
      by_contra hnone
      have hempty := hclauses _ (shortest?_mem hshort) fun l hl => by
        by_contra hfalse
        exact hnone ⟨l, hl, by simpa using hfalse⟩
      cases hempty
  | case3 clauses l old hshort ih =>
      intro h hclauses
      have hunit := hclauses _ (shortest?_mem hshort)
      have hl := hzero _ (List.mem_map_of_mem (shortest?_mem hshort)) l List.mem_cons_self
      refine ih reasons (nonZero_assign hzero) (Except.map_eq_error.mp h)
        (holds_assign hl (fun hall => ?_) hclauses)
      simpa using hunit hall
  | case4 => intro h; cases h
  | case5 clauses l head tail old hshort first herror hmem ih₁ ih₂ =>
      intro h hclauses
      have hl := hzero _ (List.mem_map_of_mem (shortest?_mem hshort)) l List.mem_cons_self
      obtain ⟨m, hm, hfalse⟩ := ih₁ first (nonZero_assign hzero) herror
        (holds_assign hl (fun hall => hall l List.mem_cons_self) hclauses)
      refine ih₂ reasons (nonZero_assign hzero) (Except.map_eq_error.mp h)
        (holds_assign (Int.neg_ne_zero.mpr hl) (fun hall => ?_) hclauses)
      -- all other reasons hold, so the decision itself is the one that fails
      have heq : m = l := by
        by_contra hne
        have htrue := hall m (List.mem_filter.mpr ⟨hm, by simpa using hne⟩)
        rw [htrue] at hfalse
        cases hfalse
      rw [Literal.holds_neg valuation hl, ← heq, hfalse]
      rfl
  | case6 clauses l head tail old hshort first herror hmem ih =>
      intro h hclauses
      cases h
      have hl := hzero _ (List.mem_map_of_mem (shortest?_mem hshort)) l List.mem_cons_self
      exact ih first (nonZero_assign hzero) herror
        (holds_assign hl (fun hall => hall l List.mem_cons_self) hclauses)

def tracked (clauses : List Clause) (assumptions : List Literal) : List Tracked :=
  assumptions.map (fun l => ⟨[l], [l]⟩) ++ clauses.map (⟨·, []⟩)

theorem nonZero_tracked {clauses : List Clause} {assumptions : List Literal}
    (hzero : NonZero clauses) (hassumptions : ∀ l ∈ assumptions, l ≠ 0) :
    NonZero ((tracked clauses assumptions).map (·.literals)) := by
  simpa [tracked, NonZero, or_imp, forall_and] using And.intro hassumptions hzero

-- A consistent list of literals is a valuation under which each of them holds.
theorem satisfies_of_searchUnder {clauses : List Clause} {assumptions literals : List Literal}
    (hzero : NonZero clauses) (hassumptions : ∀ l ∈ assumptions, l ≠ 0)
    (h : searchUnder clauses assumptions = .ok literals) :
    Satisfies (fun v => literals.contains (v : Int)) clauses ∧
      ∀ l ∈ assumptions, Literal.holds (fun v => literals.contains (v : Int)) l = true := by
  have hconsistent := search_ok_consistent _ _ (nonZero_tracked hzero hassumptions) h
  have hcovers := search_ok_covers _ _ h
  have hholds : ∀ l ∈ literals, Literal.holds (fun v => literals.contains (v : Int)) l = true := by
    intro l hl
    unfold Literal.holds
    by_cases hpos : 0 < l
    · have habs : (l.natAbs : Int) = l := Int.natAbs_of_nonneg (Int.le_of_lt hpos)
      simpa [hpos, habs] using hl
    · have habs : (l.natAbs : Int) = -l := Int.ofNat_natAbs_of_nonpos (Int.not_lt.mp hpos)
      simpa [hpos, habs] using hconsistent l hl
  constructor
  · intro clause hclause
    obtain ⟨l, hl, hmem⟩ := hcovers ⟨clause, []⟩
      (List.mem_append_right _ (List.mem_map_of_mem hclause))
    exact (Clause.holds_iff _ _).mpr ⟨l, hl, hholds l hmem⟩
  · intro l hl
    obtain ⟨m, hm, hmem⟩ := hcovers ⟨[l], [l]⟩
      (List.mem_append_left _ (List.mem_map.mpr ⟨l, hl, rfl⟩))
    exact hholds l (List.mem_singleton.mp hm ▸ hmem)

def Conflict (clauses : List Clause) (assumptions : List Literal) : Prop :=
  ∀ valuation, Satisfies valuation clauses → ∃ l ∈ assumptions, Literal.holds valuation l = false

-- Only assumptions carry themselves as a reason, so that the reasons of a conflict are
-- assumptions.
theorem conflict_of_searchUnder {clauses : List Clause} {assumptions reasons : List Literal}
    (hzero : NonZero clauses) (hassumptions : ∀ l ∈ assumptions, l ≠ 0)
    (h : searchUnder clauses assumptions = .error reasons) :
    reasons ⊆ assumptions ∧ Conflict clauses reasons := by
  constructor
  · intro l hl
    obtain ⟨c, hc, hmem⟩ := search_error_reasons _ _ h l hl
    rcases List.mem_append.mp hc with hc | hc
    · obtain ⟨m, hm, rfl⟩ := List.mem_map.mp hc
      exact List.mem_singleton.mp hmem ▸ hm
    · obtain ⟨clause, hclause, rfl⟩ := List.mem_map.mp hc
      cases hmem
  · intro valuation hsat
    refine search_error_conflict _ _ (nonZero_tracked hzero hassumptions) valuation h ?_
    intro c hc hreasons
    rcases List.mem_append.mp hc with hc | hc
    · obtain ⟨m, hm, rfl⟩ := List.mem_map.mp hc
      simpa using hreasons
    · obtain ⟨clause, hclause, rfl⟩ := List.mem_map.mp hc
      exact hsat clause hclause

theorem Conflict.mono {clauses : List Clause} {assumptions others : List Literal}
    (h : Conflict clauses assumptions) (hsubset : assumptions ⊆ others) :
    Conflict clauses others := by
  intro valuation hsat
  obtain ⟨l, hl, hfalse⟩ := h valuation hsat
  exact ⟨l, hsubset hl, hfalse⟩

theorem shrink_subset (clauses : List Clause) (needed rest : List Literal) :
    shrink clauses needed rest ⊆ needed ++ rest := by
  induction rest generalizing needed with
  | nil => simp [shrink]
  | cons l rest ih =>
      simp only [shrink]
      split
      · simpa using ih (needed ++ [l])
      · exact List.Subset.trans (ih needed)
          ((List.sublist_cons_self l rest).append_left needed).subset

theorem conflict_shrink {clauses : List Clause} (hzero : NonZero clauses)
    (needed rest : List Literal) (hne : ∀ l ∈ needed ++ rest, l ≠ 0)
    (h : Conflict clauses (needed ++ rest)) : Conflict clauses (shrink clauses needed rest) := by
  induction rest generalizing needed with
  | nil => simpa [shrink] using h
  | cons l rest ih =>
      simp only [shrink]
      split
      · exact ih (needed ++ [l]) (by simpa using hne) (by simpa using h)
      · rename_i reasons herror
        have hsub : needed ++ rest ⊆ needed ++ l :: rest :=
          ((List.sublist_cons_self l rest).append_left needed).subset
        have hne' : ∀ m ∈ needed ++ rest, m ≠ 0 := fun m hm => hne m (hsub hm)
        have hconflict := conflict_of_searchUnder hzero hne' herror
        exact ih needed hne' (hconflict.2.mono hconflict.1)

-- Where the clauses alone cannot hold, every assumption can be left out.
theorem shrink_eq_nil {clauses : List Clause} (hzero : NonZero clauses)
    (hunsat : ∀ valuation, ¬Satisfies valuation clauses) (rest : List Literal)
    (hne : ∀ l ∈ rest, l ≠ 0) : shrink clauses [] rest = [] := by
  induction rest with
  | nil => rfl
  | cons l rest ih =>
      have hne' : ∀ m ∈ rest, m ≠ 0 := fun m hm => hne m (List.mem_cons_of_mem _ hm)
      simp only [shrink, List.nil_append]
      split
      · rename_i literals hok
        exact absurd (satisfies_of_searchUnder hzero hne' hok).1 (hunsat _)
      · exact ih hne'

theorem bySearch_sound : Procedure.Sound bySearch where
  decided := by
    intro clauses assumptions _ _ h
    unfold bySearch at h
    split at h <;> cases h
  sat_holds := by
    intro clauses assumptions valuation hzero hne h
    unfold bySearch at h
    split at h
    · rename_i literals hok
      cases h
      exact satisfies_of_searchUnder hzero hne hok
    · cases h
  failed_subset := by
    intro clauses assumptions failed hzero hne h
    unfold bySearch at h
    split at h
    · cases h
    · rename_i reasons herror
      cases h
      have hshrink := shrink_subset clauses [] reasons
      exact List.Subset.trans hshrink (conflict_of_searchUnder hzero hne herror).1
  failed_conflict := by
    intro clauses assumptions failed hzero hne h
    unfold bySearch at h
    split at h
    · cases h
    · rename_i reasons herror
      cases h
      obtain ⟨hsub, hconflict⟩ := conflict_of_searchUnder hzero hne herror
      exact conflict_shrink hzero [] reasons (fun l hl => hne l (hsub hl)) hconflict

theorem bySearch_fair : Procedure.Fair bySearch := by
  intro clauses assumptions failed hzero hne h hunsat
  unfold bySearch at h
  split at h
  · cases h
  · rename_i reasons herror
    cases h
    have hsub := (conflict_of_searchUnder hzero hne herror).1
    exact shrink_eq_nil hzero hunsat reasons fun l hl => hne l (hsub hl)

end Qualify.Sat
