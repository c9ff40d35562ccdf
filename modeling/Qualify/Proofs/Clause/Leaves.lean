import Mathlib.Data.List.Pairwise
import Qualify.Clause.OfConstraint
import Qualify.Proofs.Clause.Numbering

namespace Qualify

theorem Relation.holds_comm {kind : Relation} (h : kind.isSymmetric = true) (lattice : Lattice)
    (a b : Qualifier) : kind.holds lattice a b = kind.holds lattice b a := by
  cases kind with
  | comparable => exact Bool.or_comm _ _
  | equality => exact BEq.comm
  | inequality => exact congrArg (!·) BEq.comm
  | subtype => cases h

namespace Numbering

-- A slot takes one qualifier of the lattice, and its literals say which.
structure Takes (numbering : Numbering) (lattice : Lattice) (valuation : Valuation) (id : SlotId)
    (chosen : Qualifier) : Prop where
  lt : chosen < lattice.size
  ne_zero : ∀ q < lattice.size, numbering.literal id q ≠ 0
  holds : ∀ q < lattice.size, Literal.holds valuation (numbering.literal id q) = (chosen == q)

section Clauses

variable {numbering : Numbering} {lattice : Lattice} {valuation : Valuation}

theorem Takes.holds_neg {id : SlotId} {chosen q : Qualifier}
    (h : numbering.Takes lattice valuation id chosen) (hq : q < lattice.size) :
    Literal.holds valuation (-numbering.literal id q) = (chosen != q) := by
  rw [Literal.holds_neg valuation (h.ne_zero q hq), h.holds q hq]
  rfl

-- The clause of the chosen qualifier is the only one that can be violated.
theorem satisfies_forbid {id : SlotId} {chosen : Qualifier}
    (h : numbering.Takes lattice valuation id chosen) (allowed : Qualifier → Bool) :
    Satisfies valuation (forbid numbering lattice id allowed) ↔ allowed chosen = true := by
  rw [forbid, satisfies_map]
  constructor
  · intro hall
    by_contra hnot
    rw [Bool.not_eq_true] at hnot
    have hmem : chosen ∈ lattice.qualifiers.filter fun q => !allowed q := by
      simp [Lattice.qualifiers, h.lt, hnot]
    have hclause := hall chosen hmem
    simp [h.holds_neg h.lt] at hclause
  · intro hallowed q hq
    obtain ⟨hlt, hnot⟩ := List.mem_filter.mp hq
    have hne : chosen ≠ q := by
      rintro rfl
      simp [hallowed] at hnot
    simp [h.holds_neg (List.mem_range.mp hlt), hne]

-- Only the row of the qualifier the first slot takes matters, and that row is a list of forbidden
-- qualifiers for the second.
theorem satisfies_forbidPairs {first second : SlotId} {a b : Qualifier}
    (ha : numbering.Takes lattice valuation first a)
    (hb : numbering.Takes lattice valuation second b) (allowed : Qualifier → Qualifier → Bool) :
    Satisfies valuation (forbidPairs numbering lattice first second allowed) ↔
      allowed a b = true := by
  have hrow : ∀ p < lattice.size, Satisfies valuation
      ((lattice.qualifiers.filter fun q => !allowed p q).map fun q =>
        [-numbering.literal first p, -numbering.literal second q]) ↔
      a ≠ p ∨ Satisfies valuation (forbid numbering lattice second (allowed p)) := by
    intro p hp
    rw [forbid, satisfies_map, satisfies_map]
    by_cases hne : a = p
    · simp [ha.holds_neg hp, hne]
    · simp [ha.holds_neg hp, hne]
  rw [forbidPairs, satisfies_flatMap]
  constructor
  · intro hall
    have hmine := (hrow a ha.lt).mp (hall a (List.mem_range.mpr ha.lt))
    exact (satisfies_forbid hb (allowed a)).mp (hmine.resolve_left fun hne => hne rfl)
  · intro hallowed p hp
    rw [hrow p (List.mem_range.mp hp)]
    by_cases hne : a = p
    · exact .inr (hne ▸ (satisfies_forbid hb (allowed a)).mpr hallowed)
    · exact .inl hne

theorem satisfies_constantVariableClauses {id : SlotId} {q chosen : Qualifier}
    (hq : q < lattice.size) (h : numbering.Takes lattice valuation id chosen) (kind : Relation) :
    Satisfies valuation (constantVariableClauses numbering lattice kind q id) ↔
      kind.holds lattice q chosen = true := by
  cases kind with
  | comparable => exact satisfies_forbid h _
  | equality =>
      have hone : Satisfies valuation [[numbering.literal id q]] ↔ chosen = q := by
        simp [h.holds q hq]
      exact hone.trans (eq_comm.trans beq_iff_eq.symm)
  | inequality =>
      have hone : Satisfies valuation [[-numbering.literal id q]] ↔ chosen ≠ q := by
        simp [h.holds_neg hq]
      exact hone.trans (ne_comm.trans bne_iff_ne.symm)
  | subtype => exact satisfies_forbid h _

-- A constant is compared with a variable in the same way from both sides.
theorem variableConstantClauses_of_isSymmetric {kind : Relation}
    (hsymmetric : kind.isSymmetric = true) (q : Qualifier) (id : SlotId) :
    variableConstantClauses numbering lattice kind id q =
      constantVariableClauses numbering lattice kind q id := by
  cases kind with
  | subtype => cases hsymmetric
  | _ => rfl

theorem satisfies_variableConstantClauses {id : SlotId} {q chosen : Qualifier}
    (hq : q < lattice.size) (h : numbering.Takes lattice valuation id chosen) (kind : Relation) :
    Satisfies valuation (variableConstantClauses numbering lattice kind id q) ↔
      kind.holds lattice chosen q = true := by
  rcases kind.eq_subtype_or_isSymmetric with rfl | hsymmetric
  · exact satisfies_forbid h _
  · rw [Relation.holds_comm hsymmetric, variableConstantClauses_of_isSymmetric hsymmetric,
      satisfies_constantVariableClauses hq h kind]

-- Subtyping and comparability list forbidden pairs; equality and inequality say it qualifier by
-- qualifier.
theorem satisfies_variableVariableClauses {first second : SlotId} {a b : Qualifier}
    (ha : numbering.Takes lattice valuation first a)
    (hb : numbering.Takes lattice valuation second b) (kind : Relation) :
    Satisfies valuation (variableVariableClauses numbering lattice kind first second) ↔
      kind.holds lattice a b = true := by
  cases kind with
  | comparable => exact satisfies_forbidPairs ha hb _
  | equality =>
      have hone : ∀ q ∈ lattice.qualifiers, Satisfies valuation
          [[-numbering.literal first q, numbering.literal second q],
            [-numbering.literal second q, numbering.literal first q]] ↔ (a = q ↔ b = q) := by
        intro q hq
        have hlt := List.mem_range.mp hq
        simp [ha.holds q hlt, hb.holds q hlt, ha.holds_neg hlt, hb.holds_neg hlt]
        tauto
      rw [variableVariableClauses, satisfies_flatMap]
      simp only [Relation.holds, beq_iff_eq]
      constructor
      · intro hall
        have hmem : a ∈ lattice.qualifiers := List.mem_range.mpr ha.lt
        exact (((hone a hmem).mp (hall a hmem)).mp rfl).symm
      · rintro rfl q hq
        exact (hone q hq).mpr Iff.rfl
  | inequality =>
      have hone : ∀ q ∈ lattice.qualifiers, Clause.holds valuation
          [-numbering.literal first q, -numbering.literal second q] = true ↔ a ≠ q ∨ b ≠ q := by
        intro q hq
        have hlt := List.mem_range.mp hq
        simp [ha.holds_neg hlt, hb.holds_neg hlt]
      rw [variableVariableClauses, satisfies_map]
      simp only [Relation.holds, bne_iff_ne]
      constructor
      · rintro hall rfl
        have hmem : a ∈ lattice.qualifiers := List.mem_range.mpr ha.lt
        simpa using (hone a hmem).mp (hall a hmem)
      · intro hne q hq
        rw [hone q hq]
        by_cases haq : a = q
        · exact .inr fun hbq => hne (haq.trans hbq.symm)
        · exact .inl haq
  | subtype => exact satisfies_forbidPairs ha hb _

theorem forall_mem_qualifiers {chosen : Qualifier} (h : chosen < lattice.size)
    {P : Qualifier → Prop} : (∀ q ∈ lattice.qualifiers, chosen = q → P q) ↔ P chosen := by
  constructor
  · intro hall
    exact hall chosen (List.mem_range.mpr h) rfl
  · rintro hchosen q - rfl
    exact hchosen

end Clauses

end Numbering

-- An operand of some value: the constant of it, or a slot that takes it.
def Operand.Means (numbering : Numbering) (lattice : Lattice) (valuation : Valuation) :
    Operand → Qualifier → Prop
  | .constant q, value => value = q ∧ q < lattice.size
  | .slot id, value => numbering.Takes lattice valuation id value

namespace Numbering

-- A variable operand adds one clause for each qualifier it could take, of which all but one hold
-- at once.
theorem satisfies_functionClauses {numbering : Numbering} {lattice : Lattice}
    {valuation : Valuation} (hclosed : lattice.Closed) (table : TableFunction) {result : SlotId}
    {left right : Operand} {r a b : Qualifier}
    (hresult : numbering.Takes lattice valuation result r)
    (hleft : left.Means numbering lattice valuation a)
    (hright : right.Means numbering lattice valuation b) :
    Satisfies valuation (functionClauses numbering lattice table result (left, right)) ↔
      (r == table.apply lattice a b) = true := by
  -- The literal of the result is a literal of its row, since tables do not lead out of the lattice.
  have hholds : ∀ x y, Literal.holds valuation
      (numbering.literal result (table.apply lattice x y)) = (r == table.apply lattice x y) :=
    fun x y => hresult.holds _ (TableFunction.apply_lt hclosed table x y)
  cases left with
  | constant p =>
      obtain ⟨rfl, hp⟩ := hleft
      cases right with
      | constant q =>
          obtain ⟨rfl, hq⟩ := hright
          simp [functionClauses, hholds]
      | slot w =>
          rw [functionClauses, satisfies_map, ← forall_mem_qualifiers hright.lt
            (P := fun y => (r == table.apply lattice a y) = true)]
          refine forall₂_congr fun y hy => ?_
          simp [hholds, hright.holds_neg (List.mem_range.mp hy), or_iff_not_imp_left]
  | slot v =>
      cases right with
      | constant q =>
          obtain ⟨rfl, hq⟩ := hright
          rw [functionClauses, satisfies_map, ← forall_mem_qualifiers hleft.lt
            (P := fun x => (r == table.apply lattice x b) = true)]
          refine forall₂_congr fun x hx => ?_
          simp [hholds, hleft.holds_neg (List.mem_range.mp hx), or_iff_not_imp_left]
      | slot w =>
          rw [functionClauses, satisfies_flatMap, ← forall_mem_qualifiers hleft.lt
            (P := fun x => (r == table.apply lattice x b) = true)]
          refine forall₂_congr fun x hx => ?_
          rw [satisfies_map, ← forall_mem_qualifiers hright.lt
            (P := fun y => (r == table.apply lattice x y) = true)]
          by_cases hne : a = x
          · -- In the row of the qualifier the left operand takes, only the right one is open.
            simp only [hne, forall_const]
            refine forall₂_congr fun y hy => ?_
            simp [hne, hholds, hleft.holds_neg (List.mem_range.mp hx),
              hright.holds_neg (List.mem_range.mp hy), or_iff_not_imp_left]
          · simp [hne, hleft.holds_neg (List.mem_range.mp hx)]

section Literals

variable {numbering : Numbering} {lattice : Lattice} {count : Nat}

def RowWithin (numbering : Numbering) (lattice : Lattice) (count : Nat) (id : SlotId) : Prop :=
  ∀ q < lattice.size, Literal.isWithin count (numbering.literal id q) = true

def OfSlot (numbering : Numbering) (lattice : Lattice) (id : SlotId) (l : Literal) : Prop :=
  ∃ q < lattice.size, l = numbering.literal id q ∨ l = -numbering.literal id q

def OfSlots (numbering : Numbering) (lattice : Lattice) (S : SlotId → Prop)
    (clauses : List Clause) : Prop :=
  ∀ clause ∈ clauses, ∀ l ∈ clause, ∃ id, S id ∧ numbering.OfSlot lattice id l

theorem ofSlot_literal (numbering : Numbering) {q : Qualifier} (hq : q < lattice.size)
    (id : SlotId) :
    numbering.OfSlot lattice id (numbering.literal id q) :=
  ⟨q, hq, .inl rfl⟩

theorem OfSlot.neg {id : SlotId} {l : Literal} (h : numbering.OfSlot lattice id l) :
    numbering.OfSlot lattice id (-l) := by
  obtain ⟨q, hq, hl | hl⟩ := h
  · exact ⟨q, hq, .inr (congrArg _ hl)⟩
  · exact ⟨q, hq, .inl (by rw [hl, Int.neg_neg])⟩

theorem OfSlot.isWithin {id : SlotId} {l : Literal} (h : numbering.OfSlot lattice id l)
    (hrow : numbering.RowWithin lattice count id) : Literal.isWithin count l = true := by
  obtain ⟨q, hq, hl | hl⟩ := h
  · rw [hl]
    exact hrow q hq
  · rw [hl, Literal.isWithin_neg]
    exact hrow q hq

theorem OfSlots.within {S : SlotId → Prop} {clauses : List Clause}
    (h : numbering.OfSlots lattice S clauses)
    (hrows : ∀ id, S id → numbering.RowWithin lattice count id) : Within count clauses := by
  intro clause hclause l hl
  obtain ⟨id, hid, hslot⟩ := h clause hclause l hl
  exact hslot.isWithin (hrows id hid)

section Occurrences

variable {S : SlotId → Prop}

theorem forbid_ofSlots {id : SlotId} (hid : S id) (allowed : Qualifier → Bool) :
    numbering.OfSlots lattice S (forbid numbering lattice id allowed) := by
  intro clause hclause
  obtain ⟨q, hq, rfl⟩ := List.mem_map.mp hclause
  have hlt := List.mem_range.mp (List.mem_filter.mp hq).1
  simpa using ⟨id, hid, (ofSlot_literal numbering hlt id).neg⟩

theorem forbidPairs_ofSlots {first second : SlotId} (hfirst : S first) (hsecond : S second)
    (allowed : Qualifier → Qualifier → Bool) :
    numbering.OfSlots lattice S (forbidPairs numbering lattice first second allowed) := by
  intro clause hclause
  obtain ⟨p, hp, hclause⟩ := List.mem_flatMap.mp hclause
  obtain ⟨q, hq, rfl⟩ := List.mem_map.mp hclause
  have hlt := List.mem_range.mp (List.mem_filter.mp hq).1
  simpa using ⟨⟨first, hfirst, (ofSlot_literal numbering (List.mem_range.mp hp) first).neg⟩,
    ⟨second, hsecond, (ofSlot_literal numbering hlt second).neg⟩⟩

theorem constantVariableClauses_ofSlots {id : SlotId} {q : Qualifier} (hq : q < lattice.size)
    (hid : S id) (kind : Relation) :
    numbering.OfSlots lattice S (constantVariableClauses numbering lattice kind q id) := by
  have hliteral := ofSlot_literal numbering hq id
  cases kind with
  | comparable => exact forbid_ofSlots hid _
  | equality => simpa [constantVariableClauses, OfSlots] using ⟨id, hid, hliteral⟩
  | inequality => simpa [constantVariableClauses, OfSlots] using ⟨id, hid, hliteral.neg⟩
  | subtype => exact forbid_ofSlots hid _

theorem variableConstantClauses_ofSlots {id : SlotId} {q : Qualifier} (hq : q < lattice.size)
    (hid : S id) (kind : Relation) :
    numbering.OfSlots lattice S (variableConstantClauses numbering lattice kind id q) := by
  cases kind with
  | comparable => exact constantVariableClauses_ofSlots hq hid .comparable
  | equality => exact constantVariableClauses_ofSlots hq hid .equality
  | inequality => exact constantVariableClauses_ofSlots hq hid .inequality
  | subtype => exact forbid_ofSlots hid _

theorem variableVariableClauses_ofSlots {first second : SlotId} (hfirst : S first)
    (hsecond : S second) (kind : Relation) :
    numbering.OfSlots lattice S (variableVariableClauses numbering lattice kind first second) := by
  cases kind with
  | comparable => exact forbidPairs_ofSlots hfirst hsecond _
  | equality =>
      intro clause hclause
      obtain ⟨q, hq, hclause⟩ := List.mem_flatMap.mp hclause
      have hf := ofSlot_literal numbering (List.mem_range.mp hq) first
      have hs := ofSlot_literal numbering (List.mem_range.mp hq) second
      simp only [List.mem_cons, List.not_mem_nil, or_false] at hclause
      rcases hclause with rfl | rfl
      · simpa using ⟨⟨first, hfirst, hf.neg⟩, ⟨second, hsecond, hs⟩⟩
      · simpa using ⟨⟨second, hsecond, hs.neg⟩, ⟨first, hfirst, hf⟩⟩
  | inequality =>
      intro clause hclause
      obtain ⟨q, hq, rfl⟩ := List.mem_map.mp hclause
      have hlt := List.mem_range.mp hq
      simpa using ⟨⟨first, hfirst, (ofSlot_literal numbering hlt first).neg⟩,
        ⟨second, hsecond, (ofSlot_literal numbering hlt second).neg⟩⟩
  | subtype => exact forbidPairs_ofSlots hfirst hsecond _

theorem functionClauses_ofSlots (hclosed : lattice.Closed) (table : TableFunction)
    {result : SlotId} {left right : Operand} (hresult : S result)
    (hleft : ∀ id, left = .slot id → S id) (hright : ∀ id, right = .slot id → S id) :
    numbering.OfSlots lattice S (functionClauses numbering lattice table result (left, right)) := by
  have happly : ∀ a b, ∃ id, S id ∧
      numbering.OfSlot lattice id (numbering.literal result (table.apply lattice a b)) :=
    fun a b => ⟨result, hresult,
      ofSlot_literal numbering (TableFunction.apply_lt hclosed table a b) result⟩
  have hoperand : ∀ id, S id → ∀ q ∈ lattice.qualifiers, ∃ id', S id' ∧
      numbering.OfSlot lattice id' (-numbering.literal id q) :=
    fun id hid q hq => ⟨id, hid, (ofSlot_literal numbering (List.mem_range.mp hq) id).neg⟩
  intro clause hclause
  cases left with
  | constant p =>
      cases right with
      | constant q =>
          obtain rfl := List.mem_singleton.mp hclause
          simpa using happly p q
      | slot w =>
          obtain ⟨b, hb, rfl⟩ := List.mem_map.mp hclause
          simpa using ⟨hoperand w (hright w rfl) b hb, happly p b⟩
  | slot v =>
      cases right with
      | constant q =>
          obtain ⟨a, ha, rfl⟩ := List.mem_map.mp hclause
          simpa using ⟨hoperand v (hleft v rfl) a ha, happly a q⟩
      | slot w =>
          obtain ⟨a, ha, hclause⟩ := List.mem_flatMap.mp hclause
          obtain ⟨b, hb, rfl⟩ := List.mem_map.mp hclause
          simpa using ⟨hoperand v (hleft v rfl) a ha, hoperand w (hright w rfl) b hb, happly a b⟩

end Occurrences

theorem exactlyOne_within {literals : List Literal}
    (h : ∀ l ∈ literals, Literal.isWithin count l = true) :
    Within count (Clause.exactlyOne literals) := by
  refine List.forall_mem_cons.mpr ⟨h, List.forall_mem_map.mpr fun pair hpair => ?_⟩
  obtain ⟨ha, hb⟩ := mem_of_mem_pairsOf hpair
  simp [h _ ha, h _ hb]

-- Exactly one literal of the row holds, and its column is the qualifier the slot takes.
theorem satisfies_wellFormedness {id : SlotId}
    (hrow : numbering.RowWithin lattice count id) (valuation : Valuation) :
    Satisfies valuation (wellFormedness numbering lattice id) ↔
      ∃ chosen, numbering.Takes lattice valuation id chosen := by
  have hzero : ∀ q < lattice.size, numbering.literal id q ≠ 0 :=
    fun q hq => Literal.ne_zero_of_isWithin (hrow q hq)
  have hliterals : ∀ l ∈ lattice.qualifiers.map (numbering.literal id), l ≠ 0 :=
    List.forall_mem_map.mpr fun q hq => hzero q (List.mem_range.mp hq)
  rw [wellFormedness, satisfies_exactlyOne valuation _ hliterals, List.pairwise_map]
  constructor
  · rintro ⟨⟨l, hl, hholds⟩, hpairwise⟩
    obtain ⟨chosen, hchosen, rfl⟩ := List.mem_map.mp hl
    refine ⟨chosen, List.mem_range.mp hchosen, hzero, fun q hq => ?_⟩
    by_cases heq : chosen = q
    · rw [← heq, hholds, beq_self_eq_true]
    · have hsymm : Std.Symm fun a b => ¬(Literal.holds valuation (numbering.literal id a) = true ∧
          Literal.holds valuation (numbering.literal id b) = true) :=
        ⟨fun a b h h' => h h'.symm⟩
      have hboth := hpairwise.forall hchosen (List.mem_range.mpr hq) heq
      rw [beq_eq_false_iff_ne.mpr heq]
      simpa [hholds] using hboth
  · rintro ⟨chosen, htakes⟩
    have hmem : chosen ∈ lattice.qualifiers := List.mem_range.mpr htakes.lt
    refine ⟨⟨_, List.mem_map_of_mem hmem, by rw [htakes.holds _ htakes.lt, beq_self_eq_true]⟩, ?_⟩
    refine List.nodup_range.imp_of_mem fun {a b} ha hb hne h => hne ?_
    rw [htakes.holds a (List.mem_range.mp ha), htakes.holds b (List.mem_range.mp hb),
      beq_iff_eq, beq_iff_eq] at h
    exact h.1.symm.trans h.2

end Literals

end Numbering

end Qualify
