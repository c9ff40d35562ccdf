import Qualify.Inference.Answer
import Qualify.Proofs.Cnf.Encoding
import Qualify.Proofs.Sat.Attained
import Qualify.Proofs.Solution.Meaning

namespace Qualify

-- Slots are solved for in the order of their numbers.
theorem Registry.WellFormed.pairwise_variableSlots {registry : Registry}
    (hwf : registry.WellFormed) : registry.variableSlots.Pairwise (·.index < ·.index) :=
  List.pairwise_map.mpr ((Registry.pairwise_slots hwf.index_eq).filter _)

theorem Registry.WellFormed.nodup_variableSlots {registry : Registry}
    (hwf : registry.WellFormed) : registry.variableSlots.Nodup :=
  hwf.pairwise_variableSlots.imp fun hlt heq => Nat.ne_of_lt hlt (congrArg _ heq)

namespace Cnf

variable {cnf : Cnf} {registry : Registry} {numbering : Numbering}
  {constraints : List Constraint} {interpretation : Interpretation} {valuation : Valuation}

-- One variable of a slot holds, and no other.
theorem held_eq_singleton_iff {id : SlotId} {chosen : Qualifier} :
    cnf.held valuation id = [chosen] ↔
      chosen < cnf.size ∧
        ∀ q < cnf.size, valuation (id.index * cnf.size + q + 1) = (chosen == q) := by
  constructor
  · intro h
    have hmem : ∀ q, q = chosen ↔
        q < cnf.size ∧ valuation (id.index * cnf.size + q + 1) = true := by
      intro q
      rw [← List.mem_singleton, ← h, held, List.mem_filter, List.mem_range]
    refine ⟨((hmem chosen).mp rfl).1, fun q hq => ?_⟩
    rw [Bool.eq_iff_iff, beq_iff_eq, @eq_comm _ chosen q, hmem q]
    exact (and_iff_right hq).symm
  · rintro ⟨hlt, hvalue⟩
    have hfilter : ∀ q ∈ List.range cnf.size,
        valuation (id.index * cnf.size + q + 1) = (q == chosen) :=
      fun q hq => (hvalue q (List.mem_range.mp hq)).trans BEq.comm
    rw [held, List.filter_congr hfilter, List.filter_beq,
      List.count_eq_one_of_mem List.nodup_range (List.mem_range.mpr hlt)]
    rfl

theorem held_eq_singleton_iff_takes (hfits : numbering.Fits registry) (hwf : registry.WellFormed)
    (hsize : cnf.size = registry.lattice.size) {id : SlotId} (hid : id ∈ registry.variableSlots)
    {chosen : Qualifier} :
    cnf.held valuation id = [chosen] ↔ numbering.Takes registry.lattice valuation id chosen := by
  have hvalue : ∀ q < registry.lattice.size, Literal.holds valuation (numbering.literal id q) =
      valuation (id.index * registry.lattice.size + q + 1) := by
    intro q hq
    rw [hfits.literal_eq (hwf.index_lt hid) hq, Literal.holds_natCast valuation (Nat.succ_pos _)]
  rw [held_eq_singleton_iff, hsize]
  constructor
  · rintro ⟨hlt, hrow⟩
    exact ⟨hlt, fun q hq => Literal.ne_zero_of_isWithin
      (hfits.literal_isWithin (hwf.index_lt hid) hq), fun q hq => (hvalue q hq).trans (hrow q hq)⟩
  · exact fun h => ⟨h.lt, fun q hq => (hvalue q hq).symm.trans (h.holds q hq)⟩

-- By induction on the slots: each comes after all entries so far, so that inserting it appends
-- it.
theorem decodeFrom_eq {choice : SlotId → Qualifier} {slots : List SlotId} {solution : Solution}
    (hrange : ∀ id ∈ slots, id.index * cnf.size + cnf.size ≤ cnf.count)
    (hheld : ∀ id ∈ slots, cnf.held valuation id = [choice id])
    (hslots : slots.Pairwise (·.index < ·.index))
    (hbefore : ∀ entry ∈ solution.entries, ∀ id ∈ slots, entry.1.index < id.index) :
    cnf.decodeFrom valuation solution slots =
      .ok ⟨solution.entries ++ slots.map fun id => (id, choice id)⟩ := by
  induction slots generalizing solution with
  | nil => simp [decodeFrom]
  | cons id rest ih =>
      obtain ⟨hwithin, hrange⟩ := List.forall_mem_cons.mp hrange
      obtain ⟨hid, hrest⟩ := List.forall_mem_cons.mp hheld
      obtain ⟨hfirst, hslots⟩ := List.pairwise_cons.mp hslots
      have hinsert : solution.insert id (choice id) = ⟨solution.entries ++ [(id, choice id)]⟩ :=
        congrArg Solution.mk (Solution.insertSorted_of_lt fun entry hentry =>
          hbefore entry hentry id List.mem_cons_self)
      rw [decodeFrom, if_neg (Nat.not_lt.mpr hwithin), hid]
      dsimp only
      rw [hinsert, ih hrange hrest hslots]
      · simp
      · intro entry hentry later hlater
        rcases List.mem_append.mp hentry with hentry | hentry
        · exact hbefore entry hentry later (List.mem_cons_of_mem _ hlater)
        · rw [List.mem_singleton.mp hentry]
          exact hfirst later hlater

theorem decode_eq_of_held (hslots : cnf.slots = registry.variableSlots)
    (hrows : ∀ id ∈ registry.variableSlots, id.index * cnf.size + cnf.size ≤ cnf.count)
    (hwf : registry.WellFormed)
    (hheld : ∀ id ∈ registry.variableSlots, cnf.held valuation id = [interpretation.choice id]) :
    cnf.decode valuation = .ok (interpretation.solution registry) := by
  rw [decode, hslots]
  exact decodeFrom_eq hrows hheld hwf.pairwise_variableSlots (by simp [Solution.empty])

theorem Represents.decode_eq (hcnf : cnf.Represents registry numbering constraints)
    (hfits : numbering.Fits registry) (hwf : registry.WellFormed)
    (hrange : interpretation.InRange registry)
    (hreads : numbering.Reads registry interpretation valuation) :
    cnf.decode valuation = .ok (interpretation.solution registry) := by
  have hmirrors := hreads.mirrors (hfits.bounded hwf)
  have hrows : ∀ id ∈ registry.variableSlots, id.index * cnf.size + cnf.size ≤ cnf.count := by
    rw [hcnf.size_eq, hcnf.count_eq]
    exact fun id hid => hfits.row_le_count (hwf.index_lt hid)
  exact decode_eq_of_held hcnf.slots_eq hrows hwf fun id hid =>
    (held_eq_singleton_iff_takes hfits hwf hcnf.size_eq hid).mpr (hmirrors.takes hrange hid)

-- A soft clause is violated exactly when the preference behind it is not met.
theorem sum_softClauses (hwf : registry.WellFormed)
    (hreads : numbering.Reads registry interpretation valuation)
    (hbuilt : ∀ c ∈ constraints, Constraint.Built registry c) :
    ((constraints.filterMap (Constraint.softClause? numbering)).map fun entry =>
        if Clause.holds valuation entry.1 then 0 else entry.2).sum =
      (interpretation.solution registry).cost constraints := by
  induction constraints with
  | nil => rfl
  | cons c rest ih =>
      obtain ⟨hc, hrest⟩ := List.forall_mem_cons.mp hbuilt
      have hcost : (interpretation.solution registry).cost (c :: rest) =
          (interpretation.solution registry).penalty c +
            (interpretation.solution registry).cost rest := rfl
      rw [hcost, ← ih hrest, List.filterMap_cons]
      cases hsoft : c.isSoft with
      | true =>
          obtain ⟨subject, goal, q, weight, location, rfl, hsubject, hq⟩ := hc.soft_cases hwf hsoft
          have hholds := hreads.literal_holds subject hsubject q hq
          simp [Constraint.softClause?, Solution.penalty, hholds,
            Interpretation.get?_solution hsubject]
      | false =>
          have hpenalty : (interpretation.solution registry).penalty c = 0 := by
            cases c <;> first | rfl | cases hsoft
          rw [Constraint.softClause?_eq_none hsoft, hpenalty, Nat.zero_add]

theorem softClauses_within (hfits : numbering.Fits registry) (hwf : registry.WellFormed)
    (hbuilt : ∀ c ∈ constraints, Constraint.Built registry c) :
    Within numbering.count
      ((constraints.filterMap (Constraint.softClause? numbering)).map (·.1)) := by
  refine List.forall_mem_map.mpr fun entry hentry => ?_
  obtain ⟨c, hc, hentry⟩ := List.mem_filterMap.mp hentry
  cases hsoft : c.isSoft with
  | true =>
      obtain ⟨subject, goal, q, weight, location, rfl, hsubject, hq⟩ :=
        (hbuilt c hc).soft_cases hwf hsoft
      obtain rfl := Option.some.inj hentry
      exact List.forall_mem_singleton.mpr ((hfits.bounded hwf).row subject hsubject q hq)
  | false =>
      rw [Constraint.softClause?_eq_none hsoft] at hentry
      cases hentry

theorem Represents.isWithin (hcnf : cnf.Represents registry numbering constraints)
    (hfits : numbering.Fits registry) (hwf : registry.WellFormed)
    (hbuilt : ∀ c ∈ constraints, Constraint.Built registry c) :
    cnf.problem.isWithin = true := by
  have hsoft := softClauses_within hfits hwf hbuilt
  rw [← hcnf.soft_eq, ← hcnf.count_eq] at hsoft
  simp only [Sat.Problem.isWithin, problem, Bool.and_eq_true, Bool.or_eq_true, List.all_eq_true]
  exact ⟨hcnf.within, fun entry hentry => .inr (hsoft entry.1 (List.mem_map_of_mem hentry))⟩

theorem Represents.costOf_eq (hcnf : cnf.Represents registry numbering constraints)
    (hwf : registry.WellFormed) (hbuilt : ∀ c ∈ constraints, Constraint.Built registry c)
    (hreads : numbering.Reads registry interpretation valuation) :
    cnf.problem.costOf valuation = (interpretation.solution registry).cost constraints := by
  rw [← sum_softClauses hwf hreads hbuilt, ← hcnf.soft_eq]
  rfl

theorem Represents.satisfies_assignment (hcnf : cnf.Represents registry numbering constraints)
    (hfits : numbering.Fits registry) (hwf : registry.WellFormed)
    (hmeets : interpretation.Meets registry constraints) :
    Satisfies (numbering.assignment registry interpretation) cnf.problem.hard :=
  (hcnf.satisfies_iff _).mpr ⟨interpretation, hmeets.inRange,
    Numbering.reads_assignment hfits hwf interpretation, hmeets.holds⟩

theorem Represents.unsatisfiable (hcnf : cnf.Represents registry numbering constraints)
    (hnone : ∀ interpretation : Interpretation, ¬interpretation.Meets registry constraints) :
    ∀ valuation, ¬Satisfies valuation cnf.problem.hard := by
  intro valuation h
  obtain ⟨interpretation, hrange, -, hholds⟩ := (hcnf.satisfies_iff valuation).mp h
  exact hnone interpretation ⟨hrange, hholds⟩

theorem solve_of_unsatisfiable (hwithin : cnf.problem.isWithin = true) {sat : Sat.Procedure}
    (hsound : sat.Sound) (hfair : sat.Fair ∨ cnf.soft = [])
    (hnone : ∀ valuation, ¬Satisfies valuation cnf.problem.hard) :
    cnf.solve sat = .ok none := by
  rw [solve, if_pos hwithin, Sat.Problem.maximize_of_unsatisfiable hwithin hsound hfair hnone]

section Solve

variable (hcnf : cnf.Represents registry numbering constraints)
  (hfits : numbering.Fits registry) (hwf : registry.WellFormed)
  (hbuilt : ∀ c ∈ constraints, Constraint.Built registry c) {sat : Sat.Procedure}
include hcnf hfits hwf hbuilt

-- The best interpretations of the constraints are the optimal values of the clauses.
theorem Represents.best_iff (hmeets : interpretation.Meets registry constraints)
    (hreads : numbering.Reads registry interpretation valuation) :
    interpretation.Best registry constraints ↔
      ∀ other, Satisfies other cnf.problem.hard →
        cnf.problem.costOf valuation ≤ cnf.problem.costOf other := by
  constructor
  · intro hbest other hother
    obtain ⟨found, hrange, hfound, hholds⟩ := (hcnf.satisfies_iff other).mp hother
    rw [hcnf.costOf_eq hwf hbuilt hreads, hcnf.costOf_eq hwf hbuilt hfound]
    exact hbest.least found ⟨hrange, hholds⟩
  · refine fun hleast => ⟨hmeets, fun other hother => ?_⟩
    have hle := hleast _ (hcnf.satisfies_assignment hfits hwf hother)
    rwa [hcnf.costOf_eq hwf hbuilt hreads,
      hcnf.costOf_eq hwf hbuilt (Numbering.reads_assignment hfits hwf other)] at hle

theorem Represents.solve_of_optimal (hrange : interpretation.InRange registry)
    (hreads : numbering.Reads registry interpretation valuation) {cost : Nat}
    (hmaximize : cnf.problem.maximize sat = .optimal valuation cost) :
    cnf.solve sat = .ok (some (interpretation.solution registry)) := by
  rw [solve, if_pos (hcnf.isWithin hfits hwf hbuilt), hmaximize]
  dsimp only
  rw [hcnf.decode_eq hfits hwf hrange hreads]
  rfl

theorem Represents.solve_of_meets (hsound : sat.Sound)
    (hmeets : interpretation.Meets registry constraints) :
    ∃ best : Interpretation, best.Best registry constraints ∧
      cnf.solve sat = .ok (some (best.solution registry)) := by
  obtain ⟨model, cost, hmaximize, hhard, hpaid, -, hleast⟩ :=
    Sat.Problem.maximize_of_satisfiable (hcnf.isWithin hfits hwf hbuilt) hsound
      (hcnf.satisfies_assignment hfits hwf hmeets)
  obtain ⟨best, hrange, hreads, hholds⟩ := (hcnf.satisfies_iff model).mp hhard
  exact ⟨best, (hcnf.best_iff hfits hwf hbuilt ⟨hrange, hholds⟩ hreads).mpr (hpaid ▸ hleast),
    hcnf.solve_of_optimal hfits hwf hbuilt hrange hreads hmaximize⟩

-- Among the best solutions none is left out: it depends on the procedure which one is found.
theorem Represents.solve_of_best (hbest : interpretation.Best registry constraints) :
    ∃ sat : Sat.Procedure, sat.Sound ∧ sat.Fair ∧
      cnf.solve sat = .ok (some (interpretation.solution registry)) := by
  have hreads := Numbering.reads_assignment hfits hwf interpretation
  obtain ⟨model, cost, hmaximize, hsame⟩ :=
    Sat.Problem.maximize_following (hcnf.isWithin hfits hwf hbuilt)
      (hcnf.satisfies_assignment hfits hwf hbest.meets)
      ((hcnf.best_iff hfits hwf hbuilt hbest.meets hreads).mp hbest)
  refine ⟨_, Sat.following_sound, Sat.following_fair, hcnf.solve_of_optimal hfits hwf hbuilt
    hbest.meets.inRange (hreads.congr hfits hwf fun n hn => hsame n ?_) hmaximize⟩
  exact Nat.le_trans hn (Nat.le_of_eq hcnf.count_eq.symm)

theorem Represents.solve_of_not_meets (hsound : sat.Sound) (hfair : sat.Fair)
    (hnone : ∀ interpretation : Interpretation, ¬interpretation.Meets registry constraints) :
    cnf.solve sat = .ok none :=
  solve_of_unsatisfiable (hcnf.isWithin hfits hwf hbuilt) hsound (.inl hfair)
    (hcnf.unsatisfiable hnone)

end Solve

-- From the constraints to a solution and back: none is found exactly when there is none, and the
-- one found gains as much as any.
theorem solve_encode (hreachable : registry.Reachable)
    (hbuilt : ∀ c ∈ constraints, Constraint.Built registry c)
    (hcount : registry.slots.size * registry.lattice.size +
      (Constraint.potentialsOfAll constraints).dedup.length < 0x80000000)
    (hroom : HasRoom registry constraints) (sat : Sat.Procedure) (hsound : sat.Sound)
    (hfair : sat.Fair) :
    ∃ cnf, encode registry constraints = .ok cnf ∧
      (cnf.solve sat = .ok none ↔
        ¬∃ interpretation : Interpretation, interpretation.Meets registry constraints) ∧
      ((∃ interpretation : Interpretation, interpretation.Meets registry constraints) →
        ∃ solution, cnf.solve sat = .ok (some solution) ∧
          solution.entries.map (·.1) = registry.variableSlots ∧
          (∃ interpretation : Interpretation, interpretation.Meets registry constraints ∧
            ∀ id ∈ registry.variableSlots, solution.get? id = some (interpretation.choice id)) ∧
          ∀ other : Interpretation, other.Meets registry constraints →
            (other.solution registry).gain constraints ≤ solution.gain constraints) := by
  have hwf := hreachable.wellFormed
  obtain ⟨cnf, numbering, hencode, hfits, hcnf⟩ := encode_represents hwf hbuilt hcount hroom
  refine ⟨cnf, hencode, ⟨?_, fun hnone => ?_⟩, ?_⟩
  · rintro hsolve ⟨interpretation, hmeets⟩
    obtain ⟨best, -, hsome⟩ := hcnf.solve_of_meets hfits hwf hbuilt hsound hmeets
    cases hsolve.symm.trans hsome
  · exact hcnf.solve_of_not_meets hfits hwf hbuilt hsound hfair (not_exists.mp hnone)
  · rintro ⟨interpretation, hmeets⟩
    obtain ⟨best, hbest, hsolve⟩ := hcnf.solve_of_meets hfits hwf hbuilt hsound hmeets
    refine ⟨_, hsolve, best.keys_solution registry,
      ⟨best, hbest.meets, fun id hid => Interpretation.get?_solution hid⟩, fun other hother => ?_⟩
    have hcost := hbest.least other hother
    have hsum := Solution.cost_add_gain (best.solution registry) (other.solution registry) constraints
    omega

section Sample

open Registry

-- A flow from the source to the sink, a rule for the sink that depends on the presence of the
-- source, and two preferences that cannot both be met.
def taintFlow : List Constraint :=
  [.relation .subtype sourceSlot sinkSlot .missing,
    .existential sourceSlot [.relation .equality sinkSlot untaintedSlot .missing]
      [.relation .equality sinkSlot taintedSlot .missing] (.code "io" 1 1 ""),
    .preference sinkSlot untaintedSlot 1 3 (.code "io" 2 1 ""),
    .preference sourceSlot taintedSlot 0 4 (.code "io" 1 1 "")]

theorem taintFlow_built : ∀ c ∈ taintFlow, Constraint.Built taint c := by
  have hrelate : ∀ kind first second c,
      Constraint.relate taint kind first second .missing = .ok c → Constraint.Built taint c :=
    fun _ _ _ _ h => .relate .refl h
  have hflow := hrelate .subtype sourceSlot sinkSlot _ rfl
  have hpresent := hrelate .equality sinkSlot untaintedSlot _ rfl
  have habsent := hrelate .equality sinkSlot taintedSlot _ rfl
  have hbranch : Constraint.branch taint sourceSlot
      [.relation .equality sinkSlot untaintedSlot .missing]
      [.relation .equality sinkSlot taintedSlot .missing] = .ok _ := rfl
  have hsecond : Constraint.prefer taint sinkSlot untaintedSlot 3 = .ok _ := rfl
  have hfirst : Constraint.prefer taint sourceSlot taintedSlot 4 = .ok _ := rfl
  simp only [taintFlow, List.forall_mem_cons]
  exact ⟨hflow, .branch .refl (List.forall_mem_singleton.mpr hpresent)
    (List.forall_mem_singleton.mpr habsent) hbranch, .prefer .refl hsecond, .prefer .refl hfirst,
    by simp⟩

def tainted : Interpretation where
  choice _ := 0
  present _ := false

theorem taintFlow_solve_encode :
    tainted.Meets taint taintFlow ∧
      ∃ cnf solution, encode taint taintFlow = .ok cnf ∧
        cnf.solve Sat.bySearch = .ok (some solution) ∧
        solution.entries.map (·.1) = taint.variableSlots ∧
        4 ≤ solution.gain taintFlow := by
  have hmeets : tainted.Meets taint taintFlow := ⟨by decide, by decide⟩
  obtain ⟨cnf, hencode, -, hsome⟩ := solve_encode taint_reachable taintFlow_built
    (by decide) (by decide) Sat.bySearch Sat.bySearch_sound Sat.bySearch_fair
  obtain ⟨solution, hsolve, hkeys, -, hgain⟩ := hsome ⟨tainted, hmeets⟩
  have hfour : (tainted.solution taint).gain taintFlow = 4 := by decide
  exact ⟨hmeets, cnf, solution, hencode, hsolve, hkeys, hfour ▸ hgain tainted hmeets⟩

end Sample

end Cnf

end Qualify
