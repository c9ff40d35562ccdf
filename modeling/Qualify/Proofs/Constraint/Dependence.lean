import Qualify.Proofs.Clause.Meaning
import Qualify.Proofs.Constraint.Normalization

namespace Qualify

theorem Solution.value_congr {registry : Registry} {first second : Solution} {id : SlotId}
    (h : first.get? id = second.get? id) : first.value registry id = second.value registry id := by
  rw [value, value, h]

namespace Constraint

-- Only the two compound constraints visit potentials of their own or of their parts.
theorem potential_mem_slots {c : Constraint} {p : SlotId} (h : Visit.potential p ∈ c.visits) :
    p ∈ c.slots := by
  have hparts : ∀ parts : List Constraint,
      (∀ part ∈ parts, Visit.potential p ∈ part.visits → p ∈ part.slots) →
      Visit.potential p ∈ visitsOfAll parts → p ∈ slotsOfAll parts := by
    intro parts ih hp
    rw [visitsOfAll_eq] at hp
    obtain ⟨part, hpart, hp⟩ := List.mem_flatMap.mp hp
    exact slots_subset_slotsOfAll hpart (ih part hpart hp)
  induction c with
  | existential potential present absent location ihpresent ihabsent =>
      rw [visits, List.mem_cons, List.mem_append] at h
      rw [slots, List.mem_cons, List.mem_append]
      refine h.imp (fun heq => ?_) (Or.imp (hparts present ihpresent) (hparts absent ihabsent))
      cases heq
      rfl
  | implication assumptions conclusion location ihassumptions ihconclusion =>
      rw [visits, List.mem_append] at h
      rw [slots, List.mem_append]
      exact h.imp (hparts assumptions ihassumptions) ihconclusion
  | _ => simp [visits] at h

-- A constraint depends only on the slots it lists. Solutions that agree on them cannot be told
-- apart by it, and each literal in its clauses says what qualifier one of them takes or whether
-- one of them is present.
theorem depends_on_slots {registry : Registry} (hreachable : registry.Reachable) (c : Constraint) :
    (∀ first second : Solution, (∀ id ∈ c.slots, first.get? id = second.get? id) →
      first.holds registry c = second.holds registry c) ∧
    ∀ (numbering after : Numbering) (clauses : List Clause),
      c.clauses registry numbering = (.ok clauses, after) →
      ∀ clause ∈ clauses, ∀ l ∈ clause,
        (∃ id ∈ c.slots, id ∈ registry.variableSlots ∧ ∃ q < registry.lattice.size,
          l = after.literal id q ∨ l = -after.literal id q) ∨
        ∃ p ∈ c.slots, Visit.potential p ∈ c.visits ∧ p ∈ after.potentials ∧
          (l = after.presence p ∨ l = -after.presence p) := by
  refine ⟨fun first second h => ?_, ?_⟩
  · exact Solution.holds_congr c fun id hid => Solution.value_congr (h id hid)
  intro numbering after clauses h clause hclause l hl
  obtain ⟨hok, rfl⟩ := Prod.mk.inj h
  have hideal := idealClauses_of_clausesWith hok
  have hcovered := covered_useAll numbering hideal
  rcases literalOf_of_idealClauses hreachable.wellFormed c hideal clause hclause l hl with
    ⟨id, ⟨hid, hvariable⟩, hslot⟩ | ⟨p, hp, hpresence⟩
  · exact .inl ⟨id, hid, hvariable, hslot⟩
  · exact .inr ⟨p, potential_mem_slots hp, hp, hcovered p hp, hpresence⟩

section Sample

open Registry

def sinkRule : Constraint :=
  .implication
    [.existential sinkSlot [.relation .equality sinkSlot taintedSlot .missing] [] .missing]
    (.relation .equality sinkSlot untaintedSlot .missing) .missing

-- The source is none of the slots of the rule: its qualifier does not help a check that lacks the
-- sink, and no literal is about it.
theorem sinkRule_depends_on_slots :
    (∀ id ∈ sinkRule.slots,
        (Solution.ofList [(sourceSlot, 0)]).get? id = Solution.empty.get? id) ∧
      (Solution.ofList [(sourceSlot, 0)]).holds taint sinkRule =
        .error (.undecodedSlot sinkSlot) ∧
      sinkRule.clauses taint (Numbering.ofRegistry taint) =
        (.ok [[-7, 8], [9, 8]], ⟨2, 8, [sinkSlot]⟩) ∧
      ∀ clause ∈ ([[-7, 8], [9, 8]] : List Clause), ∀ l ∈ clause,
        (∃ id ∈ sinkRule.slots, id ∈ taint.variableSlots ∧ ∃ q < taint.lattice.size,
          l = Numbering.literal ⟨2, 8, [sinkSlot]⟩ id q ∨
            l = -Numbering.literal ⟨2, 8, [sinkSlot]⟩ id q) ∨
        ∃ p ∈ sinkRule.slots, Visit.potential p ∈ sinkRule.visits ∧ p ∈ [sinkSlot] ∧
          (l = Numbering.presence ⟨2, 8, [sinkSlot]⟩ p ∨
            l = -Numbering.presence ⟨2, 8, [sinkSlot]⟩ p) := by
  have hagree : ∀ id ∈ sinkRule.slots,
      (Solution.ofList [(sourceSlot, 0)]).get? id = Solution.empty.get? id := by decide
  have hclauses : sinkRule.clauses taint (Numbering.ofRegistry taint) =
      (.ok [[-7, 8], [9, 8]], ⟨2, 8, [sinkSlot]⟩) :=
    Prod.ext (Except.toOption_eq_some.mp (by decide)) rfl
  obtain ⟨hholds, hliterals⟩ := depends_on_slots taint_reachable sinkRule
  refine ⟨hagree, ?_, hclauses, hliterals _ _ _ hclauses⟩
  rw [hholds _ _ hagree]
  rfl

end Sample

end Constraint

end Qualify
