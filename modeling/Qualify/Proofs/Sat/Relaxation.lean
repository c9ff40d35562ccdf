import Mathlib.Algebra.BigOperators.Group.List.Basic
import Mathlib.Algebra.GroupWithZero.Nat
import Qualify.Proofs.Sat.Procedure
import Qualify.Sat.Optimum

namespace Qualify.Sat

def Problem.costOf (problem : Problem) (valuation : Valuation) : Nat :=
  (problem.soft.map fun entry => if Clause.holds valuation entry.1 then 0 else entry.2).sum

def Soft.penalty (valuation : Valuation) (soft : Soft) : Nat :=
  if Clause.holds valuation soft.literals then 0 else soft.weight

namespace Relaxation

def residual (r : Relaxation) (valuation : Valuation) : Nat :=
  (r.softs.map (Soft.penalty valuation)).sum

def bodies (r : Relaxation) : List Clause :=
  r.hard ++ r.softs.map (·.literals)

-- The variables of the problem, the ones in use and the blockers are kept apart. A blocker occurs
-- in its own guarded clause only, so its value can be changed freely where that clause holds.
structure Separated (problem : Problem) (r : Relaxation) : Prop where
  count_lt : problem.count < r.next
  nonZero : NonZero r.bodies
  below : ∀ clause ∈ r.bodies, ∀ l ∈ clause, l.natAbs < r.next
  blocker_range : ∀ soft ∈ r.softs, problem.count < soft.blocker ∧ soft.blocker < r.next
  blocker_fresh : ∀ soft ∈ r.softs, ∀ clause ∈ r.bodies, ∀ l ∈ clause, l.natAbs ≠ soft.blocker
  weight_pos : ∀ soft ∈ r.softs, 0 < soft.weight

-- What has been paid and what is left to pay bound the cost of the problem from both sides: from
-- above for all values of the relaxed clauses, and from below for some that extend given values
-- of the problem.
structure Exact (problem : Problem) (r : Relaxation) : Prop where
  upper : ∀ valuation, Satisfies valuation r.hard →
    Satisfies valuation problem.hard ∧ problem.costOf valuation ≤ r.cost + r.residual valuation
  lower : ∀ valuation, Satisfies valuation problem.hard →
    ∃ extended : Valuation, (∀ n ≤ problem.count, extended n = valuation n) ∧
      Satisfies extended r.hard ∧ r.cost + r.residual extended ≤ problem.costOf valuation

theorem mem_bodies_of_hard {r : Relaxation} {clause : Clause} (h : clause ∈ r.hard) :
    clause ∈ r.bodies :=
  List.mem_append_left _ h

theorem mem_bodies_of_soft {r : Relaxation} {soft : Soft} (h : soft ∈ r.softs) :
    soft.literals ∈ r.bodies :=
  List.mem_append_right _ (List.mem_map_of_mem h)

theorem nonZero_clauses {problem : Problem} {r : Relaxation} (hr : r.Separated problem) :
    NonZero r.clauses := by
  refine nonZero_append.mpr ⟨fun clause h => hr.nonZero clause (mem_bodies_of_hard h), ?_⟩
  intro clause hclause l hl
  obtain ⟨soft, hsoft, rfl⟩ := List.mem_map.mp hclause
  have hblocker := hr.blocker_range soft hsoft
  rcases List.mem_append.mp hl with hl | hl
  · exact hr.nonZero _ (mem_bodies_of_soft hsoft) l hl
  · rw [List.mem_singleton.mp hl]
    exact Int.natCast_ne_zero.mpr (by omega)

theorem assumptions_ne_zero {problem : Problem} {r : Relaxation} (hr : r.Separated problem) :
    ∀ l ∈ r.assumptions, l ≠ 0 := by
  intro l hl
  obtain ⟨soft, hsoft, rfl⟩ := List.mem_map.mp hl
  have hblocker := hr.blocker_range soft hsoft
  exact Int.neg_ne_zero.mpr (Int.natCast_ne_zero.mpr (by omega))

theorem holds_blocker {problem : Problem} {r : Relaxation} (hr : r.Separated problem)
    {soft : Soft} (hsoft : soft ∈ r.softs) (valuation : Valuation) :
    Literal.holds valuation (-(soft.blocker : Int)) = !valuation soft.blocker := by
  have hpos : 0 < soft.blocker := by have := hr.blocker_range soft hsoft; omega
  rw [Literal.holds_neg valuation (Int.natCast_ne_zero.mpr (by omega)),
    Literal.holds_natCast valuation hpos]

theorem holds_guarded {problem : Problem} {r : Relaxation} (hr : r.Separated problem)
    {soft : Soft} (hsoft : soft ∈ r.softs) (valuation : Valuation) :
    Clause.holds valuation soft.guarded =
      (Clause.holds valuation soft.literals || valuation soft.blocker) := by
  have hpos : 0 < soft.blocker := by have := hr.blocker_range soft hsoft; omega
  simp [Soft.guarded, Literal.holds_natCast valuation hpos]

-- Where nothing is blocked, nothing is left to pay.
theorem residual_eq_zero_of_sat {problem : Problem} {r : Relaxation} (hr : r.Separated problem)
    {valuation : Valuation} (hclauses : Satisfies valuation r.clauses)
    (hassumptions : ∀ l ∈ r.assumptions, Literal.holds valuation l = true) :
    r.residual valuation = 0 := by
  refine List.sum_eq_zero fun n hn => ?_
  obtain ⟨soft, hsoft, rfl⟩ := List.mem_map.mp hn
  have hopen := hassumptions _ (List.mem_map_of_mem hsoft)
  have hblocker : valuation soft.blocker = false := by
    simpa [holds_blocker hr hsoft] using hopen
  have hguarded := (satisfies_append _ _ _).mp hclauses |>.2 _ (List.mem_map_of_mem hsoft)
  have hliterals : Clause.holds valuation soft.literals = true := by
    simpa [holds_guarded hr hsoft, hblocker] using hguarded
  simp [Soft.penalty, hliterals]

def withBlockers (r : Relaxation) (blocked : Nat → Bool) (valuation : Valuation) : Valuation :=
  fun n => if r.softs.any (·.blocker == n) then blocked n else valuation n

theorem withBlockers_blocker {r : Relaxation} (blocked : Nat → Bool) (valuation : Valuation)
    {soft : Soft} (hsoft : soft ∈ r.softs) :
    r.withBlockers blocked valuation soft.blocker = blocked soft.blocker :=
  if_pos (List.any_eq_true.mpr ⟨soft, hsoft, by simp⟩)

theorem withBlockers_eq {r : Relaxation} (blocked : Nat → Bool) (valuation : Valuation) {n : Nat}
    (h : ∀ soft ∈ r.softs, n ≠ soft.blocker) : r.withBlockers blocked valuation n = valuation n := by
  refine if_neg ?_
  simp only [List.any_eq_true, beq_iff_eq, not_exists, not_and]
  exact fun soft hsoft heq => h soft hsoft heq.symm

-- A soft clause that does not hold has to be blocked.
theorem satisfies_clauses_withBlockers {problem : Problem} {r : Relaxation}
    (hr : r.Separated problem) {blocked : Nat → Bool} {valuation : Valuation}
    (hhard : Satisfies valuation r.hard)
    (hsofts : ∀ soft ∈ r.softs, blocked soft.blocker = false →
      Clause.holds valuation soft.literals = true) :
    Satisfies (r.withBlockers blocked valuation) r.clauses := by
  have hsame : ∀ clause ∈ r.bodies,
      Clause.holds (r.withBlockers blocked valuation) clause = Clause.holds valuation clause :=
    fun clause hclause => Clause.holds_congr fun l hl => withBlockers_eq blocked valuation
      fun soft hsoft => hr.blocker_fresh soft hsoft clause hclause l hl
  refine (satisfies_append _ _ _).mpr ⟨fun clause hclause => ?_, (satisfies_map _ _ _).mpr ?_⟩
  · rw [hsame clause (mem_bodies_of_hard hclause)]
    exact hhard clause hclause
  · intro soft hsoft
    rw [holds_guarded hr hsoft, hsame _ (mem_bodies_of_soft hsoft),
      withBlockers_blocker blocked valuation hsoft]
    cases hblocked : blocked soft.blocker with
    | true => exact Bool.or_true _
    | false => rw [hsofts soft hsoft hblocked, Bool.true_or]

-- With the blockers as the failed assumptions want them, some values would satisfy the clauses
-- unless a soft clause of the core is violated.
theorem exists_violated {problem : Problem} {r : Relaxation} (hr : r.Separated problem)
    {sat : Procedure} (hsat : sat.Blames) {failed : List Literal}
    (hfailed : sat r.clauses r.assumptions = .unsat failed) {valuation : Valuation}
    (hhard : Satisfies valuation r.hard) :
    ∃ soft ∈ r.softs, isFailed failed soft = true ∧
      Clause.holds valuation soft.literals = false := by
  by_contra hnone
  have hclauses : Satisfies
      (r.withBlockers (fun n => !failed.contains (-(n : Int))) valuation) r.clauses := by
    refine satisfies_clauses_withBlockers hr hhard fun soft hsoft hin => ?_
    by_contra hfalse
    exact hnone ⟨soft, hsoft, by simpa [isFailed] using hin, by simpa using hfalse⟩
  have hzero := nonZero_clauses hr
  have hne := assumptions_ne_zero hr
  obtain ⟨l, hl, hfalse⟩ := hsat.failed_conflict hzero hne hfailed _ hclauses
  obtain ⟨soft, hsoft, rfl⟩ := List.mem_map.mp (hsat.failed_subset hzero hne hfailed hl)
  rw [holds_blocker hr hsoft, withBlockers_blocker _ _ hsoft, List.contains_iff_mem.mpr hl] at hfalse
  cases hfalse

theorem leastWeight_le {softs : List Soft} {soft : Soft} (h : soft ∈ softs) :
    leastWeight softs ≤ soft.weight := by
  fun_induction leastWeight softs with
  | case1 => cases h
  | case2 only => exact Nat.le_of_eq (congrArg Soft.weight (List.mem_singleton.mp h).symm)
  | case3 first rest hrest ih =>
      rcases List.mem_cons.mp h with rfl | h
      · exact Nat.min_le_left _ _
      · exact Nat.le_trans (Nat.min_le_right _ _) (ih h)

theorem leastWeight_pos {softs : List Soft} (hne : softs ≠ [])
    (hpos : ∀ soft ∈ softs, 0 < soft.weight) : 0 < leastWeight softs := by
  fun_induction leastWeight softs with
  | case1 => exact absurd rfl hne
  | case2 only => exact hpos only List.mem_cons_self
  | case3 first rest hrest ih =>
      have hfirst := hpos first List.mem_cons_self
      have htail := ih hrest fun soft hsoft => hpos soft (List.mem_cons_of_mem _ hsoft)
      exact Nat.lt_min.mpr ⟨hfirst, htail⟩

theorem core_map_fst (r : Relaxation) (failed : List Literal) :
    (r.core failed).map (·.1) = r.softs.filter (isFailed failed) :=
  List.zipIdx_map_fst _ _

theorem mem_core {r : Relaxation} {failed : List Literal} {entry : Soft × Nat}
    (h : entry ∈ r.core failed) :
    entry.1 ∈ r.softs ∧ isFailed failed entry.1 = true ∧ entry.2 < (r.core failed).length := by
  have hfst : entry.1 ∈ r.softs.filter (isFailed failed) :=
    core_map_fst r failed ▸ List.mem_map_of_mem h
  have hlt := List.snd_lt_of_mem_zipIdx h
  rw [Nat.add_zero] at hlt
  have hlen : (r.core failed).length = (r.softs.filter (isFailed failed)).length :=
    List.length_zipIdx
  exact ⟨(List.mem_filter.mp hfst).1, (List.mem_filter.mp hfst).2, hlen ▸ hlt⟩

theorem exists_mem_core {r : Relaxation} {failed : List Literal} {soft : Soft}
    (hsoft : soft ∈ r.softs) (hin : isFailed failed soft = true) :
    ∃ i, (soft, i) ∈ r.core failed := by
  have hmem : soft ∈ (r.core failed).map (·.1) := by
    rw [core_map_fst]
    exact List.mem_filter.mpr ⟨hsoft, hin⟩
  obtain ⟨⟨_, i⟩, hentry, rfl⟩ := List.mem_map.mp hmem
  exact ⟨i, hentry⟩

theorem core_pairwise (r : Relaxation) (failed : List Literal) :
    (r.core failed).Pairwise fun a b => a.2 ≠ b.2 := by
  have hnodup : ((r.core failed).map (·.2)).Nodup := by
    have hrange : (r.core failed).map (·.2) =
        List.range' 0 (r.softs.filter (isFailed failed)).length :=
      List.zipIdx_map_snd _ _
    rw [hrange]
    exact List.nodup_range'
  exact List.pairwise_map.mp hnodup

theorem isFailed_congr {failed : List Literal} {soft other : Soft}
    (h : soft.blocker = other.blocker) : isFailed failed soft = isFailed failed other := by
  simp only [isFailed, h]

def coreWeight (r : Relaxation) (failed : List Literal) : Nat :=
  leastWeight ((r.core failed).map (·.1))

theorem coreWeight_le {r : Relaxation} {failed : List Literal} {entry : Soft × Nat}
    (h : entry ∈ r.core failed) : r.coreWeight failed ≤ entry.1.weight :=
  leastWeight_le (List.mem_map_of_mem h)

theorem coreWeight_pos {problem : Problem} {r : Relaxation} (hr : r.Separated problem)
    {failed : List Literal} {entry : Soft × Nat} (h : entry ∈ r.core failed) :
    0 < r.coreWeight failed := by
  refine leastWeight_pos (List.ne_nil_of_mem (List.mem_map_of_mem h)) fun soft hsoft => ?_
  obtain ⟨other, hother, rfl⟩ := List.mem_map.mp hsoft
  exact hr.weight_pos _ (mem_core hother).1

-- The soft clauses after a step: the ones outside of the core, the relaxed ones and what is left
-- of the heavier ones.
theorem mem_softs_relax {r : Relaxation} {failed : List Literal} {soft : Soft}
    (h : soft ∈ (r.relax failed).softs) :
    (soft ∈ r.softs ∧ isFailed failed soft = false) ∨
      ∃ entry ∈ r.core failed, soft = r.relaxed (r.coreWeight failed) entry ∨
        (r.coreWeight failed < entry.1.weight ∧
          soft = r.remainder (r.coreWeight failed) entry) := by
  rcases List.mem_append.mp h with h | h
  · rcases List.mem_append.mp h with h | h
    · exact .inl ⟨(List.mem_filter.mp h).1, by simpa using (List.mem_filter.mp h).2⟩
    · obtain ⟨entry, hentry, rfl⟩ := List.mem_map.mp h
      exact .inr ⟨entry, hentry, .inl rfl⟩
  · obtain ⟨entry, hentry, rfl⟩ := List.mem_map.mp h
    have hfilter := List.mem_filter.mp hentry
    exact .inr ⟨entry, hfilter.1, .inr ⟨of_decide_eq_true hfilter.2, rfl⟩⟩

-- A literal after a step is an old one, the blocker of a clause in the core, or it belongs to a
-- relaxing variable.
def Known (r : Relaxation) (failed : List Literal) (l : Literal) : Prop :=
  (∃ clause ∈ r.bodies, l ∈ clause) ∨
    (∃ soft ∈ r.softs, isFailed failed soft = true ∧ l = (soft.blocker : Int)) ∨
      ∃ entry ∈ r.core failed, l.natAbs = r.relaxer entry.2

-- The hard clauses of the next round: the old ones, the guarded bodies of the core, and the
-- clauses that let exactly one of them off.
theorem known_of_mem_hard_relax {r : Relaxation} {failed : List Literal} {clause : Clause}
    (h : clause ∈ (r.relax failed).hard) : ∀ l ∈ clause, r.Known failed l := by
  intro l hl
  rcases List.mem_append.mp h with h | h
  · rcases List.mem_append.mp h with h | h
    · exact .inl ⟨clause, mem_bodies_of_hard h, hl⟩
    · obtain ⟨entry, hentry, rfl⟩ := List.mem_map.mp h
      have hcore := mem_core hentry
      rcases List.mem_append.mp hl with hl | hl
      · exact .inl ⟨_, mem_bodies_of_soft hcore.1, hl⟩
      · exact .inr (.inl ⟨entry.1, hcore.1, hcore.2.1, List.mem_singleton.mp hl⟩)
  · refine .inr (.inr ?_)
    rcases List.mem_cons.mp h with rfl | h
    · obtain ⟨entry, hentry, rfl⟩ := List.mem_map.mp hl
      exact ⟨entry, hentry, Int.natAbs_natCast _⟩
    · obtain ⟨pair, hpair, rfl⟩ := List.mem_map.mp h
      obtain ⟨hfirst, hsecond⟩ := mem_of_mem_pairsOf hpair
      have hneg : ∀ m ∈ (r.core failed).map fun entry => (r.relaxer entry.2 : Int),
          ∃ entry ∈ r.core failed, (-m).natAbs = r.relaxer entry.2 := by
        intro m hm
        obtain ⟨entry, hentry, rfl⟩ := List.mem_map.mp hm
        exact ⟨entry, hentry, by rw [Int.natAbs_neg, Int.natAbs_natCast]⟩
      rcases List.mem_cons.mp hl with rfl | hl
      · exact hneg _ hfirst
      · rw [List.mem_singleton.mp hl]
        exact hneg _ hsecond

theorem known_of_mem_bodies_relax {r : Relaxation} {failed : List Literal} {clause : Clause}
    (h : clause ∈ (r.relax failed).bodies) : ∀ l ∈ clause, r.Known failed l := by
  rcases List.mem_append.mp h with h | h
  · exact known_of_mem_hard_relax h
  · obtain ⟨soft, hsoft, rfl⟩ := List.mem_map.mp h
    intro l hl
    obtain ⟨hold, -⟩ | ⟨entry, hentry, rfl | ⟨-, rfl⟩⟩ := mem_softs_relax hsoft
    · exact .inl ⟨_, mem_bodies_of_soft hold, hl⟩
    · rcases List.mem_append.mp hl with hl | hl
      · exact .inl ⟨_, mem_bodies_of_soft (mem_core hentry).1, hl⟩
      · rw [List.mem_singleton.mp hl]
        exact .inr (.inr ⟨entry, hentry, Int.natAbs_natCast _⟩)
    · exact .inl ⟨_, mem_bodies_of_soft (mem_core hentry).1, hl⟩

-- The blocker of a soft clause after a step is an old one of a clause outside of the core, or one
-- of the two variables after a relaxing one.
theorem blocker_of_mem_softs_relax {r : Relaxation} {failed : List Literal} {soft : Soft}
    (h : soft ∈ (r.relax failed).softs) :
    (soft ∈ r.softs ∧ isFailed failed soft = false) ∨
      ∃ entry ∈ r.core failed, soft.blocker = r.relaxer entry.2 + 1 ∨
        soft.blocker = r.relaxer entry.2 + 2 := by
  obtain hold | ⟨entry, hentry, rfl | ⟨-, rfl⟩⟩ := mem_softs_relax h
  · exact .inl hold
  · exact .inr ⟨entry, hentry, .inl rfl⟩
  · exact .inr ⟨entry, hentry, .inr rfl⟩

theorem relaxer_add_two_lt {r : Relaxation} {failed : List Literal} {entry : Soft × Nat}
    (h : entry ∈ r.core failed) : r.relaxer entry.2 + 2 < (r.relax failed).next := by
  have hlt := (mem_core h).2.2
  change r.next + 3 * entry.2 + 2 < r.next + 3 * (r.core failed).length
  omega

theorem next_le_relaxer (r : Relaxation) (i : Nat) : r.next ≤ r.relaxer i := Nat.le_add_right _ _

theorem next_le_relax (r : Relaxation) (failed : List Literal) : r.next ≤ (r.relax failed).next :=
  Nat.le_add_right _ _

theorem literal_range_relax {problem : Problem} {r : Relaxation} (hr : r.Separated problem)
    {failed : List Literal} {clause : Clause} (hclause : clause ∈ (r.relax failed).bodies)
    {l : Literal} (hl : l ∈ clause) : l ≠ 0 ∧ l.natAbs < (r.relax failed).next := by
  have hcount := hr.count_lt
  have hnext := next_le_relax r failed
  rcases known_of_mem_bodies_relax hclause l hl with
    ⟨old, hold, hmem⟩ | ⟨soft, hsoft, -, rfl⟩ | ⟨entry, hentry, habs⟩
  · have hbelow := hr.below old hold l hmem
    exact ⟨hr.nonZero old hold l hmem, by omega⟩
  · have hrange := hr.blocker_range soft hsoft
    rw [Int.natAbs_natCast]
    exact ⟨Int.natCast_ne_zero.mpr (by omega), by omega⟩
  · have hlow := next_le_relaxer r entry.2
    have hhigh := relaxer_add_two_lt hentry
    exact ⟨Int.natAbs_ne_zero.mp (by omega), by omega⟩

-- A blocker is old, and then its soft clause is not in the core, or it is newer than all literals
-- of the relaxed clauses but the relaxers, from which it differs modulo three.
theorem blocker_fresh_relax {problem : Problem} {r : Relaxation} (hr : r.Separated problem)
    {failed : List Literal} {soft : Soft} (hsoft : soft ∈ (r.relax failed).softs)
    {clause : Clause} (hclause : clause ∈ (r.relax failed).bodies) {l : Literal} (hl : l ∈ clause) :
    l.natAbs ≠ soft.blocker := by
  intro heq
  obtain ⟨hsofts, hout⟩ | ⟨entry, hentry, hblocker⟩ := blocker_of_mem_softs_relax hsoft
  · rcases known_of_mem_bodies_relax hclause l hl with
      ⟨old, hold, hmem⟩ | ⟨other, hother, hin, rfl⟩ | ⟨entry', -, habs⟩
    · exact hr.blocker_fresh soft hsofts old hold l hmem heq
    · rw [Int.natAbs_natCast] at heq
      rw [isFailed_congr heq, hout] at hin
      cases hin
    · have hrange := hr.blocker_range soft hsofts
      have hlow := next_le_relaxer r entry'.2
      omega
  · have hlow := next_le_relaxer r entry.2
    rcases known_of_mem_bodies_relax hclause l hl with
      ⟨old, hold, hmem⟩ | ⟨other, hother, -, rfl⟩ | ⟨entry', -, habs⟩
    · have hbelow := hr.below old hold l hmem
      omega
    · have hrange := hr.blocker_range other hother
      rw [Int.natAbs_natCast] at heq
      omega
    · unfold relaxer at habs hblocker
      omega

-- Every new number is at least `next`, and the new `next` is above all of them.
theorem separated_relax {problem : Problem} {r : Relaxation} (hr : r.Separated problem)
    (failed : List Literal) : (r.relax failed).Separated problem := by
  have hcount := hr.count_lt
  have hnext := next_le_relax r failed
  refine ⟨by omega, fun clause hclause l hl => (literal_range_relax hr hclause hl).1,
    fun clause hclause l hl => (literal_range_relax hr hclause hl).2, ?_,
    fun soft hsoft clause hclause l hl => blocker_fresh_relax hr hsoft hclause hl, ?_⟩
  · intro soft hsoft
    obtain ⟨hold, -⟩ | ⟨entry, hentry, hblocker⟩ := blocker_of_mem_softs_relax hsoft
    · have hrange := hr.blocker_range soft hold
      omega
    · have hhigh := relaxer_add_two_lt hentry
      have hlow := next_le_relaxer r entry.2
      omega
  · intro soft hsoft
    obtain ⟨hold, -⟩ | ⟨entry, hentry, rfl | ⟨hlt, rfl⟩⟩ := mem_softs_relax hsoft
    · exact hr.weight_pos soft hold
    · exact coreWeight_pos hr hentry
    · exact Nat.sub_pos_of_lt hlt

-- Whether a clause of the core is violated and its relaxing variable makes up for it.
def isExcused (r : Relaxation) (valuation : Valuation) (entry : Soft × Nat) : Bool :=
  !Clause.holds valuation entry.1.literals && valuation (r.relaxer entry.2)

theorem penalty_relaxed {r : Relaxation} (hnext : 0 < r.next) (weight : Nat) (valuation : Valuation)
    (entry : Soft × Nat) :
    (r.relaxed weight entry).penalty valuation =
      if Clause.holds valuation entry.1.literals || valuation (r.relaxer entry.2) then 0
      else weight := by
  have hpos : 0 < r.relaxer entry.2 := Nat.add_pos_left hnext _
  simp [Soft.penalty, relaxed, Literal.holds_natCast valuation hpos]

-- The weight of a clause goes to its relaxed copy and to its remainder. Only what the relaxing
-- variables excuse gets lost.
theorem sum_penalty_core {r : Relaxation} (hnext : 0 < r.next) (weight : Nat)
    (valuation : Valuation) (entries : List (Soft × Nat))
    (hweight : ∀ entry ∈ entries, weight ≤ entry.1.weight) :
    (entries.map fun entry => entry.1.penalty valuation).sum =
      ((entries.map (r.relaxed weight)).map (Soft.penalty valuation)).sum +
        (((entries.filter fun entry => weight < entry.1.weight).map (r.remainder weight)).map
          (Soft.penalty valuation)).sum +
        weight * entries.countP (r.isExcused valuation) := by
  induction entries with
  | nil => simp
  | cons entry rest ih =>
      have hle := hweight entry List.mem_cons_self
      have hrest := ih fun other hother => hweight other (List.mem_cons_of_mem _ hother)
      have hremainder : (r.remainder weight entry).penalty valuation =
          if Clause.holds valuation entry.1.literals then 0 else entry.1.weight - weight := rfl
      have hpenalty : entry.1.penalty valuation =
          if Clause.holds valuation entry.1.literals then 0 else entry.1.weight := rfl
      simp only [List.map_cons, List.sum_cons, List.countP_cons, List.filter_cons, isExcused,
        penalty_relaxed hnext, hpenalty, hrest, Nat.mul_add]
      by_cases hlt : weight < entry.1.weight
      · by_cases hholds : Clause.holds valuation entry.1.literals = true
        · simp [hlt, hholds, hremainder]
        · by_cases hrelaxer : valuation (r.relaxer entry.2) = true
          · simp [hlt, hholds, hrelaxer, hremainder]
            omega
          · simp [hlt, hholds, hrelaxer, hremainder]
            omega
      · have heq : entry.1.weight = weight := by omega
        by_cases hholds : Clause.holds valuation entry.1.literals = true
        · simp [hlt, hholds]
        · by_cases hrelaxer : valuation (r.relaxer entry.2) = true
          · simp [hholds, hrelaxer, heq]
            omega
          · simp [hholds, hrelaxer, heq]
            omega

-- Splitting the weights of the core accounts for all of the residual except the one excuse a
-- valuation takes.
theorem residual_relax {problem : Problem} {r : Relaxation} (hr : r.Separated problem)
    (failed : List Literal) (valuation : Valuation) :
    r.residual valuation = (r.relax failed).residual valuation +
      r.coreWeight failed * (r.core failed).countP (r.isExcused valuation) := by
  have hnext : 0 < r.next := Nat.zero_lt_of_lt hr.count_lt
  have hsplit : r.residual valuation =
      ((r.softs.filter (isFailed failed)).map (Soft.penalty valuation)).sum +
        ((r.softs.filter fun soft => !isFailed failed soft).map (Soft.penalty valuation)).sum := by
    rw [← List.sum_append, ← List.map_append]
    exact (((List.filter_append_perm (isFailed failed) r.softs).map _).sum_eq).symm
  have hcore := sum_penalty_core hnext (r.coreWeight failed) valuation (r.core failed)
    fun entry hentry => coreWeight_le hentry
  have hfst : (r.core failed).map (fun entry => entry.1.penalty valuation) =
      (r.softs.filter (isFailed failed)).map (Soft.penalty valuation) := by
    rw [← core_map_fst, List.map_map]
    rfl
  have hrelax : (r.relax failed).residual valuation =
      ((r.softs.filter fun soft => !isFailed failed soft).map (Soft.penalty valuation)).sum +
        (((r.core failed).map (r.relaxed (r.coreWeight failed))).map (Soft.penalty valuation)).sum +
        ((((r.core failed).filter fun entry => r.coreWeight failed < entry.1.weight).map
          (r.remainder (r.coreWeight failed))).map (Soft.penalty valuation)).sum := by
    change List.sum (List.map _ (_ ++ _ ++ _)) = _
    rw [List.map_append, List.map_append, List.sum_append, List.sum_append]
    rfl
  rw [hfst] at hcore
  omega

theorem satisfies_hard_relax {r : Relaxation} {failed : List Literal} {valuation : Valuation} :
    Satisfies valuation (r.relax failed).hard ↔
      Satisfies valuation r.hard ∧
        (∀ entry ∈ r.core failed, Clause.holds valuation entry.1.guarded = true) ∧
        Satisfies valuation
          (Clause.exactlyOne ((r.core failed).map fun entry => (r.relaxer entry.2 : Int))) := by
  change Satisfies valuation (_ ++ _ ++ _) ↔ _
  rw [satisfies_append, satisfies_append, satisfies_map, and_assoc]

theorem satisfies_exactlyOne_relaxers {r : Relaxation} (hnext : 0 < r.next)
    {failed : List Literal} {valuation : Valuation} :
    Satisfies valuation
        (Clause.exactlyOne ((r.core failed).map fun entry => (r.relaxer entry.2 : Int))) ↔
      (∃ entry ∈ r.core failed, valuation (r.relaxer entry.2) = true) ∧
        (r.core failed).Pairwise fun a b =>
          ¬(valuation (r.relaxer a.2) = true ∧ valuation (r.relaxer b.2) = true) := by
  have hpos : ∀ i, 0 < r.relaxer i := fun i => Nat.add_pos_left hnext _
  have hzero : ∀ l ∈ (r.core failed).map fun entry => (r.relaxer entry.2 : Int), l ≠ 0 := by
    intro l hl
    obtain ⟨entry, -, rfl⟩ := List.mem_map.mp hl
    exact Int.natCast_ne_zero.mpr (Nat.ne_of_gt (hpos entry.2))
  rw [satisfies_exactlyOne valuation _ hzero, List.pairwise_map]
  simp only [List.mem_map, exists_exists_and_eq_and, Literal.holds_natCast valuation (hpos _)]

theorem countP_le_one {α : Type} (p : α → Bool) (items : List α)
    (h : items.Pairwise fun a b => ¬(p a = true ∧ p b = true)) : items.countP p ≤ 1 := by
  induction items with
  | nil => simp
  | cons a rest ih =>
      obtain ⟨hfirst, hrest⟩ := List.pairwise_cons.mp h
      by_cases ha : p a = true
      · have hzero : rest.countP p = 0 :=
          List.countP_eq_zero.mpr fun b hb hholds => hfirst b hb ⟨ha, hholds⟩
        simp [ha, hzero]
      · simpa [ha] using ih hrest

-- At most one relaxing variable holds, so a step excuses no more than it has paid.
theorem residual_le_relax {problem : Problem} {r : Relaxation} (hr : r.Separated problem)
    {failed : List Literal} {valuation : Valuation}
    (hhard : Satisfies valuation (r.relax failed).hard) :
    r.residual valuation ≤ (r.relax failed).residual valuation + r.coreWeight failed := by
  have hnext : 0 < r.next := Nat.zero_lt_of_lt hr.count_lt
  have hone := (satisfies_exactlyOne_relaxers hnext).mp (satisfies_hard_relax.mp hhard).2.2 |>.2
  have hexcused : (r.core failed).countP (r.isExcused valuation) ≤ 1 := by
    refine countP_le_one _ _ (hone.imp fun {a b} hnot hboth => hnot ?_)
    simp only [isExcused, Bool.and_eq_true] at hboth
    exact ⟨hboth.1.2, hboth.2.2⟩
  have hsplit := residual_relax hr failed valuation
  have hmul := Nat.mul_le_mul_left (r.coreWeight failed) hexcused
  omega

-- Values that satisfy the clauses before a step do so after it, once one violated clause of the
-- core is excused and the blockers of the core are given up.
def excuse (r : Relaxation) (failed : List Literal) (i : Nat) (valuation : Valuation) : Valuation :=
  fun n =>
    if n < r.next then
      valuation n || r.softs.any fun soft => isFailed failed soft && soft.blocker == n
    else decide (n = r.relaxer i)

theorem excuse_relaxer (r : Relaxation) (failed : List Literal) (i j : Nat)
    (valuation : Valuation) :
    r.excuse failed i valuation (r.relaxer j) = decide (j = i) := by
  have hnot : ¬r.relaxer j < r.next := Nat.not_lt.mpr (Nat.le_add_right _ _)
  have hiff : r.relaxer j = r.relaxer i ↔ j = i := by unfold relaxer; omega
  simp only [excuse, hnot, if_false, hiff]

theorem excuse_body {problem : Problem} {r : Relaxation} (hr : r.Separated problem)
    (failed : List Literal) (i : Nat) (valuation : Valuation) :
    ∀ clause ∈ r.bodies,
      Clause.holds (r.excuse failed i valuation) clause = Clause.holds valuation clause := by
  intro clause hclause
  refine Clause.holds_congr fun l hl => ?_
  have hany : (r.softs.any fun soft => isFailed failed soft && soft.blocker == l.natAbs) = false := by
    refine List.any_eq_false.mpr fun soft hsoft hboth => ?_
    simp only [Bool.and_eq_true, beq_iff_eq] at hboth
    exact hr.blocker_fresh soft hsoft clause hclause l hl hboth.2.symm
  simp only [excuse, hr.below clause hclause l hl, if_true, hany, Bool.or_false]

theorem residual_excuse {problem : Problem} {r : Relaxation} (hr : r.Separated problem)
    (failed : List Literal) (i : Nat) (valuation : Valuation) :
    r.residual (r.excuse failed i valuation) = r.residual valuation := by
  refine congrArg List.sum (List.map_congr_left fun soft hsoft => ?_)
  simp only [Soft.penalty, excuse_body hr failed i valuation _ (mem_bodies_of_soft hsoft)]

-- The excuse sets the blockers of the core and one relaxer, and leaves what the old bodies
-- mention alone.
theorem excuse_satisfies {problem : Problem} {r : Relaxation} (hr : r.Separated problem)
    {failed : List Literal} {entry : Soft × Nat} (hentry : entry ∈ r.core failed)
    {valuation : Valuation} (hhard : Satisfies valuation r.hard) :
    Satisfies (r.excuse failed entry.2 valuation) (r.relax failed).hard := by
  have hnext : 0 < r.next := Nat.zero_lt_of_lt hr.count_lt
  refine satisfies_hard_relax.mpr ⟨?_, ?_, (satisfies_exactlyOne_relaxers hnext).mpr ⟨?_, ?_⟩⟩
  · intro clause hclause
    rw [excuse_body hr failed entry.2 valuation _ (mem_bodies_of_hard hclause)]
    exact hhard clause hclause
  · intro other hother
    obtain ⟨hsoft, hin, -⟩ := mem_core hother
    have hrange := hr.blocker_range _ hsoft
    have hblocker : r.excuse failed entry.2 valuation other.1.blocker = true := by
      have hany : (r.softs.any fun soft =>
          isFailed failed soft && soft.blocker == other.1.blocker) = true :=
        List.any_eq_true.mpr ⟨other.1, hsoft, by simp [hin]⟩
      simp only [excuse, hrange.2, if_true, hany, Bool.or_true]
    rw [holds_guarded hr hsoft, hblocker, Bool.or_true]
  · exact ⟨entry, hentry, by rw [excuse_relaxer]; exact decide_eq_true rfl⟩
  · refine (core_pairwise r failed).imp fun {a b} hne hboth => hne ?_
    simp only [excuse_relaxer, decide_eq_true_eq] at hboth
    exact hboth.1.trans hboth.2.symm

theorem residual_relax_le {problem : Problem} {r : Relaxation} (hr : r.Separated problem)
    {failed : List Literal} {entry : Soft × Nat} (hentry : entry ∈ r.core failed)
    {valuation : Valuation} (hviolated : Clause.holds valuation entry.1.literals = false) :
    (r.relax failed).residual (r.excuse failed entry.2 valuation) + r.coreWeight failed ≤
      r.residual valuation := by
  have hexcused : 1 ≤ (r.core failed).countP (r.isExcused (r.excuse failed entry.2 valuation)) := by
    refine List.one_le_countP_iff.mpr ⟨entry, hentry, ?_⟩
    have hbody := excuse_body hr failed entry.2 valuation _ (mem_bodies_of_soft (mem_core hentry).1)
    simp [isExcused, hbody, hviolated, excuse_relaxer]
  have hsplit := residual_relax hr failed (r.excuse failed entry.2 valuation)
  have hsame := residual_excuse hr failed entry.2 valuation
  have hmul := Nat.mul_le_mul_left (r.coreWeight failed) hexcused
  omega

-- Downwards nothing is lost, since the relaxed clauses contain the old ones; upwards each
-- valuation violates some clause of the core, and that one is excused.
theorem exact_relax {problem : Problem} {r : Relaxation} (hr : r.Separated problem)
    (hexact : r.Exact problem) {sat : Procedure} (hsat : sat.Blames) {failed : List Literal}
    (hfailed : sat r.clauses r.assumptions = .unsat failed) : (r.relax failed).Exact problem := by
  have hcost : (r.relax failed).cost = r.cost + r.coreWeight failed := rfl
  constructor
  · intro valuation hhard
    have hupper := hexact.upper valuation (satisfies_hard_relax.mp hhard).1
    have hle := residual_le_relax hr hhard
    exact ⟨hupper.1, by omega⟩
  · intro valuation hproblem
    obtain ⟨extended, hagree, hhard, hlower⟩ := hexact.lower valuation hproblem
    obtain ⟨soft, hsoft, hin, hviolated⟩ := exists_violated hr hsat hfailed hhard
    obtain ⟨i, hentry⟩ := exists_mem_core hsoft hin
    refine ⟨r.excuse failed i extended, fun n hn => ?_, excuse_satisfies hr hentry hhard, ?_⟩
    · have hcount := hr.count_lt
      have hany : (r.softs.any fun soft => isFailed failed soft && soft.blocker == n) = false := by
        refine List.any_eq_false.mpr fun other hother hboth => ?_
        simp only [Bool.and_eq_true, beq_iff_eq] at hboth
        have hrange := hr.blocker_range other hother
        omega
      have hlt : n < r.next := by omega
      simp only [excuse, hlt, if_true, hany, Bool.or_false, hagree n hn]
    · have hle : (r.relax failed).residual (r.excuse failed i extended) + r.coreWeight failed ≤
          r.residual extended := residual_relax_le hr hentry hviolated
      omega

end Relaxation

end Qualify.Sat
