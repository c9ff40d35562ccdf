import Mathlib.Data.List.Sort
import Qualify.Proofs.Cnf.Addressing
import Qualify.Proofs.Constraint.Normalization

namespace Qualify

def Valuation.ofBits (bits : List Bool) : Valuation := fun number =>
  0 < number && bits.getD (number - 1) false

@[simp] theorem Valuation.ofBits_succ (bits : List Bool) (i : Nat) :
    ofBits bits (i + 1) = bits.getD i false := by
  simp [ofBits]

-- The positions that hold a value, found in two ways.
theorem filter_range_getD (row : List Bool) :
    ((List.range row.length).filter fun q => row.getD q false) = row.findIdxs fun bit => bit := by
  have hrange : ((List.range row.length).filter fun q => row.getD q false).Pairwise (· < ·) :=
    List.pairwise_lt_range.filter _
  refine hrange.eq_of_mem_iff List.pairwise_findIdxs fun q => ?_
  rw [List.mem_filter, List.mem_range, List.mem_findIdxs_iff_exists_getElem_pos,
    ← exists_prop]
  refine exists_congr fun hq => ?_
  rw [List.getD_eq_getElem _ _ hq]

namespace Solution

variable {registry : Registry} {solution : Solution}

-- The values that say what a solution chooses. All other variables, those of constants and of
-- potential slots among them, are off.
def oneHot (solution : Solution) (registry : Registry) (count : Nat) : List Bool :=
  (List.range count).map fun i =>
    (Numbering.decode? registry (i + 1)).any fun entry => solution.get? entry.1 == some entry.2

theorem getD_oneHot {count : Nat} {id : SlotId} (hid : id.index < registry.slots.size)
    {q : Qualifier} (hq : q < registry.lattice.size)
    (hcount : registry.slots.size * registry.lattice.size ≤ count) :
    (solution.oneHot registry count).getD (id.index * registry.lattice.size + q) false =
      (solution.get? id == some q) := by
  have hrow := Numbering.row_le hid hq
  have hlt : id.index * registry.lattice.size + q < count := by omega
  rw [oneHot, List.getD_eq_getElem _ _ (by simpa using hlt), List.getElem_map,
    List.getElem_range, Numbering.decode?_row hid hq]
  rfl

theorem solution_interpretation (hwf : registry.WellFormed)
    (hkeys : solution.entries.map (·.1) = registry.variableSlots) :
    solution.interpretation.solution registry = solution := by
  have hnodup : (solution.entries.map (·.1)).Nodup := hkeys ▸ hwf.nodup_variableSlots
  obtain ⟨entries⟩ := solution
  refine congrArg Solution.mk ?_
  rw [← hkeys, List.map_map]
  refine (List.map_congr_left fun entry hentry => ?_).trans (List.map_id entries)
  have hget : (Solution.mk entries).get? entry.1 = some entry.2 := lookup_of_nodup hnodup hentry
  exact Prod.ext rfl (choice_interpretation hget)

end Solution

namespace Cnf

variable {cnf : Cnf} {registry : Registry} {constraints : List Constraint} {valuation : Valuation}

-- The variables of a slot lie side by side.
theorem held_ofBits {bits : List Bool} {id : SlotId}
    (h : id.index * cnf.size + cnf.size ≤ bits.length) :
    cnf.held (.ofBits bits) id =
      ((bits.drop (id.index * cnf.size)).take cnf.size).findIdxs fun bit => bit := by
  have hlength : ((bits.drop (id.index * cnf.size)).take cnf.size).length = cnf.size := by
    simp only [List.length_take, List.length_drop]
    omega
  rw [← filter_range_getD, hlength, held]
  refine List.filter_congr fun q hq => ?_
  have hlt := List.mem_range.mp hq
  simp [List.getD_eq_getElem?_getD, hlt]

-- Decoding goes through the slots in their order. It stops at the first one for which no variable
-- holds or more than one.
theorem decodeFrom_cases {slots : List SlotId}
    (hrows : ∀ id ∈ slots, id.index * cnf.size + cnf.size ≤ cnf.count) (solution : Solution) :
    (∀ id ∈ slots, ∃ q, cnf.held valuation id = [q]) ∨
      ∃ before id after, slots = before ++ id :: after ∧
        (∀ other ∈ before, ∃ q, cnf.held valuation other = [q]) ∧
        (¬∃ q, cnf.held valuation id = [q]) ∧
        cnf.decodeFrom valuation solution slots = .error (.undecodedSlot id) := by
  induction slots generalizing solution with
  | nil => exact .inl (by simp)
  | cons id rest ih =>
      obtain ⟨hrow, hrows⟩ := List.forall_mem_cons.mp hrows
      have hwithin : ¬cnf.count < id.index * cnf.size + cnf.size := Nat.not_lt.mpr hrow
      by_cases hid : ∃ q, cnf.held valuation id = [q]
      · obtain ⟨q, hq⟩ := hid
        have hstep : cnf.decodeFrom valuation solution (id :: rest) =
            cnf.decodeFrom valuation (solution.insert id q) rest := by
          rw [decodeFrom, if_neg hwithin, hq]
        rcases ih hrows (solution.insert id q) with hall | ⟨before, failed, after, rfl, hbefore, h⟩
        · exact .inl (List.forall_mem_cons.mpr ⟨⟨q, hq⟩, hall⟩)
        · exact .inr ⟨id :: before, failed, after, rfl,
            List.forall_mem_cons.mpr ⟨⟨q, hq⟩, hbefore⟩, hstep ▸ h⟩
      · refine .inr ⟨[], id, rest, rfl, by simp, hid, ?_⟩
        rw [decodeFrom, if_neg hwithin]
        split
        · next q hq => exact absurd ⟨q, hq⟩ hid
        · rfl

theorem mem_before_of_lt {before after : List SlotId} {id other : SlotId}
    (hslots : (before ++ id :: after).Pairwise (·.index < ·.index))
    (hother : other ∈ before ++ id :: after) (hlt : other.index < id.index) : other ∈ before := by
  rcases List.mem_append.mp hother with hbefore | hrest
  · exact hbefore
  · have hlater := (List.pairwise_cons.mp (List.pairwise_append.mp hslots).2.1).1
    rcases List.mem_cons.mp hrest with rfl | hafter
    · exact absurd hlt (Nat.lt_irrefl _)
    · exact absurd hlt (Nat.lt_asymm (hlater other hafter))

section Decode

variable (hwf : registry.WellFormed) (hfits : (numberingOf registry constraints).Fits registry)
include hwf hfits

theorem rows_encoding : ∀ id ∈ registry.variableSlots,
    id.index * (encoding registry constraints).size + (encoding registry constraints).size ≤
      (encoding registry constraints).count :=
  fun _ hid => hfits.row_le_count (hwf.index_lt hid)

theorem satisfies_wellFormedness_iff_held {id : SlotId} (hid : id ∈ registry.variableSlots) :
    Satisfies valuation ((numberingOf registry constraints).wellFormedness registry.lattice id) ↔
      ∃ q, (encoding registry constraints).held valuation id = [q] := by
  rw [Numbering.satisfies_wellFormedness ((hfits.bounded hwf).row id hid)]
  exact exists_congr fun q => (held_eq_singleton_iff_takes hfits hwf rfl hid).symm

theorem satisfies_clausesOf_none_iff :
    Satisfies valuation ((encoding registry constraints).clausesOf none) ↔
      ∀ id ∈ registry.variableSlots,
        ∃ q, (encoding registry constraints).held valuation id = [q] := by
  rw [clausesOf_encoding_none, satisfies_flatMap]
  exact forall₂_congr fun id hid => satisfies_wellFormedness_iff_held hwf hfits hid

theorem decode_of_satisfies
    (h : Satisfies valuation ((encoding registry constraints).clausesOf none)) :
    ∃ interpretation : Interpretation,
      (encoding registry constraints).decode valuation = .ok (interpretation.solution registry) ∧
      ∀ id ∈ registry.variableSlots, (numberingOf registry constraints).Takes registry.lattice
        valuation id (interpretation.choice id) := by
  have hheld := (satisfies_clausesOf_none_iff hwf hfits).mp h
  choose! choice hchoice using hheld
  refine ⟨⟨choice, fun _ => false⟩,
    decode_eq_of_held rfl (rows_encoding hwf hfits) hwf hchoice, fun id hid => ?_⟩
  exact (held_eq_singleton_iff_takes hfits hwf rfl hid).mp (hchoice id hid)

-- The walk stops at the first row that does not hold exactly one qualifier; the slots come in the
-- order of their indices.
theorem decode_of_not_satisfies
    (h : ¬Satisfies valuation ((encoding registry constraints).clausesOf none)) :
    ∃ id ∈ registry.variableSlots,
      (encoding registry constraints).decode valuation = .error (.undecodedSlot id) ∧
      ¬Satisfies valuation
        ((numberingOf registry constraints).wellFormedness registry.lattice id) ∧
      ∀ other ∈ registry.variableSlots, other.index < id.index → Satisfies valuation
        ((numberingOf registry constraints).wellFormedness registry.lattice other) := by
  rw [satisfies_clausesOf_none_iff hwf hfits] at h
  rcases decodeFrom_cases (rows_encoding hwf hfits) .empty
    with hall | ⟨before, id, after, hslots, hbefore, hid, hdecode⟩
  · exact absurd hall h
  · have hmem : id ∈ registry.variableSlots := by
      rw [hslots]
      exact List.mem_append_right before List.mem_cons_self
    refine ⟨id, hmem, hdecode, ?_, fun other hother hlt => ?_⟩
    · rwa [satisfies_wellFormedness_iff_held hwf hfits hmem]
    · rw [satisfies_wellFormedness_iff_held hwf hfits hother]
      refine hbefore other (mem_before_of_lt ?_ (hslots ▸ hother) hlt)
      exact hslots ▸ hwf.pairwise_variableSlots

-- The assignment has one bit set in each row, the one the decoder finds.
theorem decode_oneHot {solution : Solution} (htotal : solution.Total registry)
    (hkeys : solution.entries.map (·.1) = registry.variableSlots) :
    (encoding registry constraints).decode
      (.ofBits (solution.oneHot registry (encoding registry constraints).count)) =
        .ok solution := by
  have hcount : registry.slots.size * registry.lattice.size ≤
      (encoding registry constraints).count := by
    rw [count_encoding hfits]
    exact Nat.le_add_right _ _
  rw [decode_eq_of_held rfl (rows_encoding hwf hfits) hwf fun id hid => ?_,
    Solution.solution_interpretation hwf hkeys]
  obtain ⟨chosen, hchosen, hlt⟩ := htotal id hid
  rw [Solution.choice_interpretation hchosen]
  refine held_eq_singleton_iff.mpr ⟨hlt, fun q hq => ?_⟩
  rw [Valuation.ofBits_succ]
  refine (Solution.getD_oneHot (hwf.index_lt hid) hq hcount).trans ?_
  rw [hchosen]
  rfl

end Decode

-- Values that make each slot take one qualifier are decoded to just these qualifiers, all others
-- are refused at the first slot that does not, and each solution is the result for some values.
theorem decode_exact (hreachable : registry.Reachable)
    (hencode : encode registry constraints = .ok cnf)
    (hcount : registry.slots.size * registry.lattice.size +
      (Constraint.potentialsOfAll constraints).dedup.length < 0x80000000) :
    (∀ bits : List Bool, bits.length = cnf.count →
      (∀ id ∈ cnf.slots, id.index * cnf.size + cnf.size ≤ bits.length ∧
        cnf.held (.ofBits bits) id =
          ((bits.drop (id.index * cnf.size)).take cnf.size).findIdxs fun bit => bit) ∧
      (Satisfies (.ofBits bits) (cnf.clausesOf none) →
        ∃ solution, cnf.decode (.ofBits bits) = .ok solution ∧
          solution.entries.map (·.1) = registry.variableSlots ∧
          ∀ id ∈ registry.variableSlots, ∃ chosen < registry.lattice.size,
            solution.get? id = some chosen ∧
            ∀ q < registry.lattice.size, Literal.holds (.ofBits bits)
              ((numberingOf registry constraints).literal id q) = true ↔ q = chosen) ∧
      (¬Satisfies (.ofBits bits) (cnf.clausesOf none) →
        ∃ id ∈ registry.variableSlots, cnf.decode (.ofBits bits) = .error (.undecodedSlot id) ∧
          ¬Satisfies (.ofBits bits)
            ((numberingOf registry constraints).wellFormedness registry.lattice id) ∧
          ∀ other ∈ registry.variableSlots, other.index < id.index → Satisfies (.ofBits bits)
            ((numberingOf registry constraints).wellFormedness registry.lattice other))) ∧
      ∀ solution : Solution, solution.Total registry →
        solution.entries.map (·.1) = registry.variableSlots →
        (solution.oneHot registry cnf.count).length = cnf.count ∧
          cnf.decode (.ofBits (solution.oneHot registry cnf.count)) = .ok solution := by
  have hwf := hreachable.wellFormed
  obtain ⟨-, rfl⟩ := encodable_of_encode hencode
  have hfits := numberingOf_fits hcount
  refine ⟨fun bits hlength => ⟨fun id hid => ?_, fun hsatisfies => ?_,
    decode_of_not_satisfies hwf hfits⟩, fun solution htotal hkeys =>
      ⟨by simp [Solution.oneHot], decode_oneHot hwf hfits htotal hkeys⟩⟩
  · have hrow : id.index * registry.lattice.size + registry.lattice.size ≤ bits.length := by
      rw [hlength]
      exact rows_encoding hwf hfits id hid
    exact ⟨hrow, held_ofBits hrow⟩
  · obtain ⟨interpretation, hdecode, htakes⟩ := decode_of_satisfies hwf hfits hsatisfies
    refine ⟨_, hdecode, interpretation.keys_solution registry, fun id hid =>
      ⟨_, (htakes id hid).lt, Interpretation.get?_solution hid, fun q hq => ?_⟩⟩
    rw [(htakes id hid).holds q hq, beq_iff_eq]
    exact eq_comm

section Sample

open Registry

def taintFlowBits : List Bool :=
  [false, false, false, false, true, false, false, true, true]

def taintFlowNoise : List Bool :=
  [true, false, false, true, true, true, false, false, false]

theorem taintFlow_decode_exact :
    ∃ cnf, encode taint taintFlow = .ok cnf ∧ cnf.count = 9 ∧
      (∃ solution, cnf.decode (.ofBits taintFlowBits) = .ok solution ∧
        solution.entries.map (·.1) = [sourceSlot, sinkSlot]) ∧
      cnf.decode (.ofBits taintFlowNoise) = .error (.undecodedSlot sourceSlot) ∧
      cnf.decode (.ofBits [false, false, false, false, false, true, true, false, false]) =
        .ok ⟨[(sourceSlot, 1), (sinkSlot, 0)]⟩ := by
  have hencode := encode_of_hasRoom taint_reachable.wellFormed
    (fun c hc => (taintFlow_built c hc).succeeds) (numberingOf_fits (by decide)) (by decide)
  have htotal : (Solution.mk [(sourceSlot, 1), (sinkSlot, 0)]).Total taint :=
    List.forall_mem_cons.mpr ⟨⟨1, rfl, by decide⟩,
      List.forall_mem_singleton.mpr ⟨0, rfl, by decide⟩⟩
  obtain ⟨hbits, hsolutions⟩ := decode_exact taint_reachable hencode (by decide)
  obtain ⟨-, hgood, -⟩ := hbits taintFlowBits (by decide)
  obtain ⟨-, -, hbad⟩ := hbits taintFlowNoise (by decide)
  obtain ⟨solution, hsolution, hkeys, -⟩ := hgood (by decide)
  obtain ⟨id, hid, herror, -, hlower⟩ := hbad (by decide)
  have hsource : ¬Satisfies (.ofBits taintFlowNoise)
      ((numberingOf taint taintFlow).wellFormedness taint.lattice sourceSlot) := by decide
  have hfirst : id = sourceSlot := by
    rcases List.mem_cons.mp hid with heq | hmem
    · exact heq
    · obtain rfl := List.mem_singleton.mp hmem
      exact absurd (hlower sourceSlot (by decide) (by decide)) hsource
  exact ⟨_, hencode, by decide, ⟨solution, hsolution, hkeys⟩, hfirst ▸ herror,
    (hsolutions _ htotal (by decide)).2⟩

end Sample

end Cnf

end Qualify
