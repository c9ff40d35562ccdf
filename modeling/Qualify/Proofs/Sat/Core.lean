import Mathlib.Data.List.Nodup
import Qualify.Proofs.Sat.Search
import Qualify.Sat.Core

namespace Qualify.Sat

namespace Selection

def pick (selection : Selection) (positions : List Nat) : List Clause :=
  positions.filterMap (selection.clauses[·]?)

structure MinimalConflict (selection : Selection) (positions : List Nat) : Prop where
  increasing : positions.Pairwise (· < ·)
  inside : ∀ i ∈ positions, i < selection.clauses.length
  conflict : ∀ valuation, ¬Satisfies valuation (selection.pick positions)
  needed : ∀ i ∈ positions, ∃ valuation, Satisfies valuation (selection.pick (positions.erase i))

section Picking

variable {selection : Selection} {valuation : Valuation} {positions : List Nat}

theorem satisfies_pick :
    Satisfies valuation (selection.pick positions) ↔ ∀ i ∈ positions, ∀ clause,
      selection.clauses[i]? = some clause → Clause.holds valuation clause = true := by
  constructor
  · intro h i hi clause hclause
    exact h clause (List.mem_filterMap.mpr ⟨i, hi, hclause⟩)
  · intro h clause hclause
    obtain ⟨i, hi, hget⟩ := List.mem_filterMap.mp hclause
    exact h i hi clause hget

theorem satisfies_pick_of_subset {others : List Nat} (hsubset : positions ⊆ others)
    (h : Satisfies valuation (selection.pick others)) :
    Satisfies valuation (selection.pick positions) :=
  satisfies_pick.mpr fun i hi => satisfies_pick.mp h i (hsubset hi)

theorem satisfies_pick_range :
    Satisfies valuation (selection.pick (List.range selection.clauses.length)) ↔
      Satisfies valuation selection.clauses := by
  rw [satisfies_pick]
  constructor
  · intro h clause hclause
    obtain ⟨i, hget⟩ := List.getElem?_of_mem hclause
    have hlt := (List.getElem?_eq_some_iff.mp hget).1
    exact h i (List.mem_range.mpr hlt) clause hget
  · intro h i _ clause hget
    exact h clause (List.mem_of_getElem? hget)

end Picking

section Guards

variable {selection : Selection} {valuation : Valuation} {positions : List Nat}

theorem within_of_isWithin (h : selection.isWithin = true) :
    Within selection.count selection.clauses := by
  simpa [isWithin, Within] using h

theorem selector_ne_zero (selection : Selection) (i : Nat) : selection.selector i ≠ 0 :=
  Int.natCast_ne_zero.mpr (by omega)

theorem selector_injective (selection : Selection) : Function.Injective selection.selector := by
  intro i j h
  have hcast : selection.count + 1 + i = selection.count + 1 + j := Int.natCast_inj.mp h
  omega

theorem selectors_ne_zero (selection : Selection) (positions : List Nat) :
    ∀ l ∈ positions.map selection.selector, l ≠ 0 :=
  List.forall_mem_map.mpr fun i _ => selection.selector_ne_zero i

theorem mem_guarded {clause : Clause} :
    clause ∈ selection.guarded ↔ ∃ i body, selection.clauses[i]? = some body ∧
      clause = body ++ [-selection.selector i] := by
  unfold guarded
  rw [List.mem_map]
  constructor
  · rintro ⟨⟨body, i⟩, hmem, rfl⟩
    exact ⟨i, body, List.mem_zipIdx_iff_getElem?.mp hmem, rfl⟩
  · rintro ⟨i, body, hget, rfl⟩
    exact ⟨(body, i), List.mem_zipIdx_iff_getElem?.mpr hget, rfl⟩

theorem nonZero_guarded (h : selection.isWithin = true) : NonZero selection.guarded := by
  intro clause hclause l hl
  obtain ⟨i, body, hget, rfl⟩ := mem_guarded.mp hclause
  rcases List.mem_append.mp hl with hl | hl
  · exact (within_of_isWithin h).nonZero body (List.mem_of_getElem? hget) l hl
  · rw [List.mem_singleton.mp hl]
    exact Int.neg_ne_zero.mpr (selection.selector_ne_zero i)

-- A clause that is switched on has to hold itself.
theorem satisfies_pick_of_guarded (hguarded : Satisfies valuation selection.guarded)
    (hselected : ∀ l ∈ positions.map selection.selector, Literal.holds valuation l = true) :
    Satisfies valuation (selection.pick positions) := by
  refine satisfies_pick.mpr fun i hi clause hget => ?_
  have hholds := hguarded _ (mem_guarded.mpr ⟨i, clause, hget, rfl⟩)
  have hselector := hselected _ (List.mem_map_of_mem hi)
  rw [Clause.holds_append, Clause.holds_cons, Clause.holds_nil,
    Literal.holds_neg valuation (selection.selector_ne_zero i), hselector] at hholds
  simpa using hholds

def switchOn (selection : Selection) (positions : List Nat) (valuation : Valuation) : Valuation :=
  fun n => if n ≤ selection.count then valuation n
    else positions.contains (n - (selection.count + 1))

theorem holds_selector_switchOn (positions : List Nat) (valuation : Valuation) (i : Nat) :
    Literal.holds (selection.switchOn positions valuation) (selection.selector i) =
      positions.contains i := by
  have hbehind : ¬selection.count + 1 + i ≤ selection.count := by omega
  have hposition : selection.count + 1 + i - (selection.count + 1) = i := by omega
  unfold selector
  rw [Literal.holds_natCast _ (by omega), switchOn, if_neg hbehind, hposition]

-- Clauses that hold can be switched on together, when all others are switched off.
theorem satisfies_guarded_switchOn (hwithin : selection.isWithin = true)
    (h : Satisfies valuation (selection.pick positions)) :
    Satisfies (selection.switchOn positions valuation) selection.guarded := by
  intro clause hclause
  obtain ⟨i, body, hget, rfl⟩ := mem_guarded.mp hclause
  have hsame : ∀ n ≤ selection.count, selection.switchOn positions valuation n = valuation n :=
    fun n hn => if_pos hn
  rw [Clause.holds_append, Clause.holds_cons, Clause.holds_nil, Bool.or_false,
    Literal.holds_neg _ (selection.selector_ne_zero i), holds_selector_switchOn]
  by_cases hi : i ∈ positions
  · have hbody : Satisfies valuation [body] :=
      List.forall_mem_singleton.mpr (satisfies_pick.mp h i hi body hget)
    have hone : Within selection.count [body] := List.forall_mem_singleton.mpr
      (within_of_isWithin hwithin body (List.mem_of_getElem? hget))
    have hholds := (hone.satisfies_congr hsame).mpr hbody body List.mem_cons_self
    rw [hholds, Bool.true_or]
  · simp [hi]

theorem mem_keep {failed : List Literal} {i : Nat} :
    i ∈ selection.keep failed positions ↔ i ∈ positions ∧ selection.selector i ∈ failed := by
  rw [keep, List.mem_filter, List.contains_iff_mem]

theorem keep_sublist (selection : Selection) (failed : List Literal) (positions : List Nat) :
    (selection.keep failed positions).Sublist positions :=
  List.filter_sublist

-- What a check can say of the clauses at some positions.
theorem check_cases (hwithin : selection.isWithin = true) {sat : Procedure} (hsat : sat.Decides)
    (positions : List Nat) :
    (∃ found, selection.check sat positions = .sat found ∧
        ∃ valuation, Satisfies valuation (selection.pick positions)) ∨
      ∃ failed, selection.check sat positions = .unsat failed ∧
        ∀ valuation, ¬Satisfies valuation (selection.pick (selection.keep failed positions)) := by
  have hzero := nonZero_guarded hwithin
  have hne := selection.selectors_ne_zero positions
  cases hcheck : selection.check sat positions with
  | sat found =>
      obtain ⟨valuation, hguarded, hselected⟩ := hsat.satisfiable hzero hne hcheck
      exact .inl ⟨found, rfl, valuation, satisfies_pick_of_guarded hguarded hselected⟩
  | unsat failed =>
      refine .inr ⟨failed, rfl, fun valuation hkept => ?_⟩
      -- With just the failed clauses switched on, no assumption is violated.
      obtain ⟨l, hl, hfalse⟩ := hsat.failed_conflict hzero hne hcheck _
        (satisfies_guarded_switchOn hwithin hkept)
      obtain ⟨i, hi, rfl⟩ := List.mem_map.mp (hsat.failed_subset hzero hne hcheck hl)
      have hmem : i ∈ selection.keep failed positions := mem_keep.mpr ⟨hi, hl⟩
      rw [holds_selector_switchOn] at hfalse
      simp [hmem] at hfalse
  | unknown => exact absurd hcheck (hsat.decided hzero hne)

end Guards

-- What the search has found out: the candidates cannot all hold, and those before the place `i`
-- are needed for that.
structure Narrowed (selection : Selection) (candidates : List Nat) (i : Nat) : Prop where
  increasing : candidates.Pairwise (· < ·)
  inside : ∀ k ∈ candidates, k < selection.clauses.length
  conflict : ∀ valuation, ¬Satisfies valuation (selection.pick candidates)
  needed : ∀ j < i, ∃ valuation, Satisfies valuation (selection.pick (candidates.eraseIdx j))

section Steps

variable {selection : Selection} {candidates : List Nat} {i : Nat}

-- Candidates that are needed take part in every conflict that is left, so that none of them is
-- lost and the place `i` keeps its meaning.
theorem Narrowed.keep_eq (h : selection.Narrowed candidates i) {failed : List Literal}
    (hfailed : ∀ valuation,
      ¬Satisfies valuation (selection.pick (selection.keep failed (candidates.eraseIdx i)))) :
    selection.keep failed (candidates.eraseIdx i) =
      candidates.take i ++ selection.keep failed (candidates.drop (i + 1)) := by
  have htake : selection.keep failed (candidates.take i) = candidates.take i := by
    refine List.filter_eq_self.mpr fun k hk => ?_
    obtain ⟨j, hj, hget⟩ := List.mem_take_iff_getElem.mp hk
    by_contra hlost
    obtain ⟨valuation, hvaluation⟩ := h.needed j (by omega)
    refine hfailed valuation (satisfies_pick_of_subset (fun m hm => ?_) hvaluation)
    obtain ⟨hmem, hin⟩ := mem_keep.mp hm
    obtain ⟨t, ht⟩ := List.getElem?_of_mem (List.mem_of_mem_eraseIdx hmem)
    refine List.mem_eraseIdx_iff_getElem?.mpr ⟨t, ?_, ht⟩
    rintro rfl
    have heq : k = m := by
      rw [List.getElem?_eq_getElem (by omega)] at ht
      exact hget.symm.trans (Option.some.inj ht)
    exact hlost (List.contains_iff_mem.mpr (heq ▸ hin))
  rw [List.eraseIdx_eq_take_drop_succ, keep, List.filter_append]
  exact congrArg (· ++ _) htake

theorem Narrowed.step_sat (h : selection.Narrowed candidates i)
    (hsat : ∃ valuation, Satisfies valuation (selection.pick (candidates.eraseIdx i))) :
    selection.Narrowed candidates (i + 1) where
  increasing := h.increasing
  inside := h.inside
  conflict := h.conflict
  needed j hj := by
    rcases Nat.lt_succ_iff_lt_or_eq.mp hj with hj | rfl
    · exact h.needed j hj
    · exact hsat

-- The positions before `i` are needed and so are kept; erasing one of them still leaves a set
-- that was satisfiable with more in it.
theorem Narrowed.step_unsat (h : selection.Narrowed candidates i) (hi : i < candidates.length)
    {failed : List Literal}
    (hfailed : ∀ valuation,
      ¬Satisfies valuation (selection.pick (selection.keep failed (candidates.eraseIdx i)))) :
    selection.Narrowed (selection.keep failed (candidates.eraseIdx i)) i := by
  have hsublist : (selection.keep failed (candidates.eraseIdx i)).Sublist candidates :=
    (selection.keep_sublist failed _).trans (List.eraseIdx_sublist candidates i)
  refine ⟨h.increasing.sublist hsublist, fun k hk => h.inside k (hsublist.subset hk), hfailed,
    fun j hj => ?_⟩
  obtain ⟨valuation, hvaluation⟩ := h.needed j hj
  refine ⟨valuation, satisfies_pick_of_subset ?_ hvaluation⟩
  have hlength : j < (candidates.take i).length := by
    rw [List.length_take]
    omega
  -- What is before `i` was tried already and is left alone.
  have hsplit : candidates.eraseIdx j = (candidates.take i).eraseIdx j ++ candidates.drop i := by
    rw [← List.eraseIdx_append_of_lt_length hlength, List.take_append_drop]
  rw [h.keep_eq hfailed, List.eraseIdx_append_of_lt_length hlength, hsplit]
  refine List.append_subset.mpr ⟨List.subset_append_left _ _, fun m hm => ?_⟩
  have hdrop := (selection.keep_sublist failed _).subset hm
  rw [← List.drop_drop] at hdrop
  exact List.mem_append_right _ (List.mem_of_mem_drop hdrop)

theorem Narrowed.minimalConflict (h : selection.Narrowed candidates i)
    (hi : ¬i < candidates.length) : selection.MinimalConflict candidates where
  increasing := h.increasing
  inside := h.inside
  conflict := h.conflict
  needed k hk := by
    have hlt := List.idxOf_lt_length_of_mem hk
    rw [List.erase_eq_eraseIdx_of_idxOf (a := k) (l := candidates) rfl]
    exact h.needed _ (by omega)

end Steps

-- The search ends whatever the procedure answers: a step leaves less candidates behind the place.
theorem minimize_minimalConflict {selection : Selection} (hwithin : selection.isWithin = true)
    {sat : Procedure} (hsat : sat.Decides) (candidates : List Nat) (i : Nat)
    (h : selection.Narrowed candidates i) :
    ∃ positions, selection.minimize sat candidates i = .minimal positions ∧
      positions.Sublist candidates ∧ selection.MinimalConflict positions := by
  induction candidates, i using minimize.induct selection sat with
  | case1 candidates i hi found hcheck ih =>
      rw [minimize, if_pos hi, hcheck]
      rcases check_cases hwithin hsat (candidates.eraseIdx i) with ⟨_, -, hfound⟩ | ⟨failed, heq, -⟩
      · exact ih (h.step_sat hfound)
      · cases hcheck.symm.trans heq
  | case2 candidates i hi failed hcheck ih =>
      rw [minimize, if_pos hi, hcheck]
      rcases check_cases hwithin hsat (candidates.eraseIdx i) with ⟨_, heq, -⟩ | ⟨_, heq, hfailed⟩
      · cases hcheck.symm.trans heq
      · cases hcheck.symm.trans heq
        obtain ⟨positions, hminimize, hsublist, hminimal⟩ := ih (h.step_unsat hi hfailed)
        exact ⟨positions, hminimize, (hsublist.trans (selection.keep_sublist failed _)).trans
          (List.eraseIdx_sublist candidates i), hminimal⟩
  | case3 candidates i hi hcheck =>
      exact absurd hcheck (hsat.decided (nonZero_guarded hwithin) (selection.selectors_ne_zero _))
  | case4 candidates i hi =>
      rw [minimize, if_neg hi]
      exact ⟨candidates, rfl, List.Sublist.refl _, h.minimalConflict hi⟩

-- Nothing can be left out of a conflict from which no clause can be missing.
theorem minimize_of_minimalConflict {selection : Selection} (hwithin : selection.isWithin = true)
    {sat : Procedure} (hsat : sat.Decides) {positions : List Nat}
    (h : selection.MinimalConflict positions) (i : Nat) :
    selection.minimize sat positions i = .minimal positions := by
  induction hrest : positions.length - i generalizing i with
  | zero => rw [minimize, if_neg (by omega)]
  | succ rest ih =>
      have hi : i < positions.length := by omega
      have hnodup : positions.Nodup := h.increasing.imp Nat.ne_of_lt
      obtain ⟨valuation, hvaluation⟩ := h.needed positions[i] (List.getElem_mem hi)
      rw [hnodup.erase_getElem] at hvaluation
      rw [minimize, if_pos hi]
      rcases check_cases hwithin hsat (positions.eraseIdx i) with
        ⟨found, hcheck, -⟩ | ⟨failed, -, hfailed⟩
      · rw [hcheck]
        exact ih (i + 1) (by omega)
      · have hkept := (selection.keep_sublist failed (positions.eraseIdx i)).subset
        exact absurd (satisfies_pick_of_subset hkept hvaluation) (hfailed valuation)

-- Every conflict has one inside from which no clause can be missing.
theorem exists_minimalConflict {selection : Selection} (hwithin : selection.isWithin = true)
    {candidates : List Nat} (hincreasing : candidates.Pairwise (· < ·))
    (hinside : ∀ k ∈ candidates, k < selection.clauses.length)
    (hconflict : ∀ valuation, ¬Satisfies valuation (selection.pick candidates)) :
    ∃ positions, positions.Sublist candidates ∧ selection.MinimalConflict positions := by
  have hnarrowed : selection.Narrowed candidates 0 :=
    ⟨hincreasing, hinside, hconflict, fun j hj => by omega⟩
  obtain ⟨positions, -, hsublist, hminimal⟩ :=
    minimize_minimalConflict hwithin bySearch_sound.decides candidates 0 hnarrowed
  exact ⟨positions, hsublist, hminimal⟩

-- The first check decides between the two answers, and its core is where the narrowing starts.
theorem minimalSubset_cases {selection : Selection} (hwithin : selection.isWithin = true)
    {sat : Procedure} (hsat : sat.Decides) :
    ((∃ valuation, Satisfies valuation selection.clauses) ∧
        selection.minimalSubset sat = .satisfiable) ∨
      ((∀ valuation, ¬Satisfies valuation selection.clauses) ∧
        ∃ positions, selection.minimalSubset sat = .minimal positions ∧
          selection.MinimalConflict positions) := by
  simp only [minimalSubset]
  rcases check_cases hwithin hsat (List.range selection.clauses.length) with
    ⟨found, hcheck, valuation, hvaluation⟩ | ⟨failed, hcheck, hfailed⟩
  · refine .inl ⟨⟨valuation, satisfies_pick_range.mp hvaluation⟩, ?_⟩
    rw [hcheck]
  · have hsublist := selection.keep_sublist failed (List.range selection.clauses.length)
    have hnarrowed : selection.Narrowed
        (selection.keep failed (List.range selection.clauses.length)) 0 :=
      ⟨List.pairwise_lt_range.sublist hsublist,
        fun k hk => List.mem_range.mp (hsublist.subset hk), hfailed, fun j hj => by omega⟩
    obtain ⟨positions, hminimize, -, hminimal⟩ :=
      minimize_minimalConflict hwithin hsat _ 0 hnarrowed
    refine .inr ⟨fun valuation h => hfailed valuation ?_, positions, ?_, hminimal⟩
    · exact satisfies_pick_of_subset hsublist.subset (satisfies_pick_range.mpr h)
    · rw [hcheck]
      exact hminimize

-- Whatever conflicts the procedure reports, what is left of the clauses in the end is a conflict
-- from which none can be missing.
theorem minimalSubset_answers (selection : Selection) (hwithin : selection.isWithin = true)
    (sat : Procedure) (hsat : sat.Decides) :
    (selection.minimalSubset sat = .satisfiable ↔
        ∃ valuation, Satisfies valuation selection.clauses) ∧
      ((∀ valuation, ¬Satisfies valuation selection.clauses) →
        ∃ positions, selection.minimalSubset sat = .minimal positions ∧
          selection.MinimalConflict positions) := by
  rcases minimalSubset_cases hwithin hsat with ⟨hsome, heq⟩ | ⟨hnone, positions, heq, hminimal⟩
  · exact ⟨iff_of_true heq hsome, fun hnone => absurd hsome (not_exists.mpr hnone)⟩
  · refine ⟨iff_of_false (fun h => ?_) (not_exists.mpr hnone), fun _ => ⟨positions, heq, hminimal⟩⟩
    cases heq.symm.trans h

-- A procedure that blames all assumptions as soon as one of them fails.
def blamingAll (sat : Procedure) : Procedure := fun clauses assumptions =>
  match sat clauses assumptions with
  | .sat valuation => .sat valuation
  | .unsat _ => .unsat assumptions
  | .unknown => .unknown

-- The verdicts are those of the procedure; only the core is larger.
theorem blamingAll_decides {sat : Procedure} (h : sat.Decides) : (blamingAll sat).Decides where
  satisfiable hzero hne hsat := by
    unfold blamingAll at hsat
    split at hsat
    · rename_i hverdict
      exact h.satisfiable hzero hne hverdict
    · cases hsat
    · cases hsat
  decided hzero hne hunknown := by
    unfold blamingAll at hunknown
    split at hunknown
    · cases hunknown
    · cases hunknown
    · rename_i hverdict
      exact h.decided hzero hne hverdict
  failed_subset _ _ hunsat := by
    unfold blamingAll at hunsat
    split at hunsat
    · cases hunsat
    · cases hunsat
      exact List.Subset.refl _
    · cases hunsat
  failed_conflict hzero hne hunsat valuation hvaluation := by
    unfold blamingAll at hunsat
    split at hunsat
    · cases hunsat
    · rename_i hverdict
      cases hunsat
      obtain ⟨l, hl, hfalse⟩ := h.failed_conflict hzero hne hverdict valuation hvaluation
      exact ⟨l, h.failed_subset hzero hne hverdict hl, hfalse⟩
    · cases hunsat

-- Clauses with four minimal conflicts. The search leaves out the first two clauses and later, with
-- the third one known to be needed, the two after it.
def fourConflicts : Selection where
  count := 3
  clauses := [[1, 2], [-1, 2], [-2, 3], [1, -3], [-1, -3], [-2, -3], [2]]

theorem fourConflicts_minimalSubset_answers :
    fourConflicts.isWithin = true ∧ (blamingAll bySearch).Decides ∧
      fourConflicts.minimalSubset (blamingAll bySearch) = .minimal [2, 5, 6] ∧
      fourConflicts.MinimalConflict [2, 5, 6] := by
  have hwithin : fourConflicts.isWithin = true := by decide
  have hdecides := blamingAll_decides bySearch_sound.decides
  have hanswer : fourConflicts.minimalSubset (blamingAll bySearch) = .minimal [2, 5, 6] := by
    decide +kernel
  have hnone : ∀ valuation, ¬Satisfies valuation fourConflicts.clauses := by
    intro valuation h
    simp only [fourConflicts, satisfies_cons, Clause.holds_cons, Clause.holds_nil] at h
    obtain ⟨-, -, hthree, -, -, hnot, htwo, -⟩ := h
    simp [Literal.holds] at hthree hnot htwo
    simp_all
  obtain ⟨positions, heq, hminimal⟩ :=
    (fourConflicts.minimalSubset_answers hwithin _ hdecides).2 hnone
  cases hanswer.symm.trans heq
  exact ⟨hwithin, hdecides, hanswer, hminimal⟩

end Selection

end Qualify.Sat
