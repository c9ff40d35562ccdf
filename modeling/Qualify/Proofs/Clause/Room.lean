import Qualify.Clause.OfConstraint
import Qualify.Proofs.Clause.Satisfaction
import Qualify.Proofs.Except

namespace Qualify

def Words (clauses : List Clause) : Prop :=
  ∀ clause ∈ clauses, ∀ l ∈ clause, Literal.isWord l = true

namespace Literal

@[simp] theorem isNegatable_neg (l : Int) : isNegatable (-l) = isWord l := by
  rw [isNegatable, Int.neg_neg]

theorem isWord_narrow (n : Int) : isWord (narrow n) = true := by
  have hlower : -0x80000000 ≤ Int.bmod n 0x100000000 := Int.le_bmod (by decide)
  have hupper : Int.bmod n 0x100000000 < 0x80000000 := Int.bmod_lt (by decide)
  rw [isWord, narrow, Bool.and_eq_true]
  exact ⟨decide_eq_true hlower, decide_eq_true hupper⟩

theorem isWord_of_isWithin {count : Nat} (hcount : count < 0x80000000) {l : Int}
    (h : isWithin count l = true) : isWord l = true := by
  simp only [isWithin, Bool.and_eq_true, decide_eq_true_eq] at h
  simp only [isWord, Bool.and_eq_true, decide_eq_true_eq]
  omega

end Literal

theorem Within.words {count : Nat} (hcount : count < 0x80000000) {clauses : List Clause}
    (h : Within count clauses) : Words clauses :=
  fun clause hclause l hl => Literal.isWord_of_isWithin hcount (h clause hclause l hl)

namespace Clause

theorem checked_of_words {clauses : List Clause} (h : Words clauses) :
    checked clauses = .ok clauses :=
  if_pos (List.all_eq_true.mpr fun clause hclause => List.all_eq_true.mpr (h clause hclause))

theorem checked_of_not_words {clauses : List Clause} (h : ¬Words clauses) :
    checked clauses = .error .overflow :=
  if_neg fun hall => h fun clause hclause =>
    List.all_eq_true.mp (List.all_eq_true.mp hall clause hclause)

theorem checked_eq_ok {clauses all : List Clause} :
    checked clauses = .ok all ↔ Words clauses ∧ all = clauses := by
  by_cases h : Words clauses
  · rw [checked_of_words h]
    exact ⟨fun heq => ⟨h, (Except.ok.inj heq).symm⟩, fun heq => congrArg _ heq.2.symm⟩
  · rw [checked_of_not_words h]
    exact iff_of_false (fun heq => by cases heq) fun heq => h heq.1

theorem length_refutations (clauses : List Clause) :
    (refutations clauses).length = picks clauses := by
  induction clauses with
  | nil => rfl
  | cons clause rest ih =>
      rw [refutations, picks, ← ih]
      simp

-- Each way to refute the assumptions goes with each conclusion.
theorem length_implying (assumptions conclusions : List Clause) :
    (implying assumptions conclusions).length = picks assumptions * conclusions.length := by
  rw [implying, ← length_refutations]
  simp

-- What there has to be room for: the clauses, the ways to refute the assumptions, and the products
-- of their numbers of literals, from the first assumption on.
structure HasRoom (assumptions conclusions : List Clause) : Prop where
  picks_le : picks assumptions ≤ room
  product_le : picks assumptions * conclusions.length ≤ room
  take_lt : ∀ n ≤ assumptions.length, picks (assumptions.take n) < 0x10000000000000000

instance (assumptions conclusions : List Clause) : Decidable (HasRoom assumptions conclusions) :=
  decidable_of_iff (picks assumptions ≤ room ∧ picks assumptions * conclusions.length ≤ room ∧
      ∀ n ≤ assumptions.length, picks (assumptions.take n) < 0x10000000000000000)
    ⟨fun ⟨h, h', h''⟩ => ⟨h, h', h''⟩, fun h => ⟨h.picks_le, h.product_le, h.take_lt⟩⟩

-- The product breaks off at the first factor that makes it too large, even if zero comes later.
theorem foldlM_multiply {n : Nat} (hn : n < 0x10000000000000000) (clauses : List Clause) :
    clauses.foldlM (fun ways clause => multiply ways clause.length) n =
      if ∀ i ≤ clauses.length, n * picks (clauses.take i) < 0x10000000000000000 then
        .ok (n * picks clauses) else .error .overflow := by
  induction clauses generalizing n with
  | nil =>
      have hnil : ∀ i ≤ ([] : List Clause).length,
          n * picks (([] : List Clause).take i) < 0x10000000000000000 := by
        simpa [picks] using hn
      rw [if_pos hnil]
      exact congrArg _ (Nat.mul_one n).symm
  | cons clause rest ih =>
      have hcond : (∀ i ≤ (clause :: rest).length,
            n * picks ((clause :: rest).take i) < 0x10000000000000000) ↔
          ∀ i ≤ rest.length, n * clause.length * picks (rest.take i) < 0x10000000000000000 := by
        constructor
        · intro hall i hi
          have hlater := hall (i + 1) (Nat.succ_le_succ hi)
          rwa [List.take_succ_cons, picks, ← Nat.mul_assoc] at hlater
        · intro hall i hi
          cases i with
          | zero => simpa [picks] using hn
          | succ i =>
              rw [List.take_succ_cons, picks, ← Nat.mul_assoc]
              exact hall i (Nat.le_of_succ_le_succ hi)
      rw [List.foldlM_cons]
      by_cases hnext : n * clause.length < 0x10000000000000000
      · rw [multiply, if_pos hnext, Except.bind_of_ok rfl, ih hnext, picks, ← Nat.mul_assoc]
        simp only [hcond]
      · have hfirst : ¬∀ i ≤ rest.length,
            n * clause.length * picks (rest.take i) < 0x10000000000000000 :=
          fun hall => hnext (by simpa [picks] using hall 0 (Nat.zero_le _))
        rw [multiply, if_neg hnext, if_neg (hcond.not.mpr hfirst)]
        rfl

theorem room_lt : room < 0x10000000000000000 := by
  decide

theorem arity_of_hasRoom {assumptions conclusions : List Clause}
    (h : HasRoom assumptions conclusions) :
    arity assumptions conclusions = .ok (picks assumptions * conclusions.length) := by
  have hall : ∀ i ≤ assumptions.length, 1 * picks (assumptions.take i) < 0x10000000000000000 := by
    simpa only [Nat.one_mul] using h.take_lt
  rw [arity, foldlM_multiply (by decide), if_pos hall, Except.bind_of_ok rfl, Nat.one_mul, multiply,
    if_pos (Nat.lt_of_le_of_lt h.product_le room_lt)]

end Clause

namespace Constraint

-- The number of clauses is the expected one wherever both can be computed.
theorem distributed_of_hasRoom (c : Constraint) {assumptions conclusions : List Clause}
    (hnegatable : (Clause.picked assumptions).all Literal.isNegatable = true)
    (h : Clause.HasRoom assumptions conclusions) :
    distributed c assumptions conclusions = .ok (Clause.implying assumptions conclusions) := by
  have hdistribute : Clause.distribute assumptions conclusions =
      .ok (Clause.implying assumptions conclusions) :=
    if_pos (by simp [hnegatable, h.picks_le, h.product_le])
  rw [distributed, hdistribute, Clause.arity_of_hasRoom h]
  exact if_pos (Clause.length_implying assumptions conclusions)

-- The bounds are checked first; when they hold, it is the running product of the arity check that
-- leaves the range.
theorem distributed_of_not_hasRoom (c : Constraint) {assumptions conclusions : List Clause}
    (h : ¬((Clause.picked assumptions).all Literal.isNegatable = true ∧
      Clause.HasRoom assumptions conclusions)) :
    distributed c assumptions conclusions = .error (.fault .overflow) := by
  rw [distributed, Clause.distribute]
  split
  · rename_i hbounds
    simp only [Bool.and_eq_true, decide_eq_true_eq] at hbounds
    obtain ⟨⟨hnegatable, hpicks⟩, hproduct⟩ := hbounds
    have hfails : ¬∀ i ≤ assumptions.length,
        1 * Clause.picks (assumptions.take i) < 0x10000000000000000 := by
      intro hall
      simp only [Nat.one_mul] at hall
      exact h ⟨hnegatable, hpicks, hproduct, hall⟩
    rw [Clause.arity, Clause.foldlM_multiply (by decide), if_neg hfails]
    rfl
  · rfl

theorem distributed_eq_ok {c : Constraint} {assumptions conclusions all : List Clause} :
    distributed c assumptions conclusions = .ok all ↔
      ((Clause.picked assumptions).all Literal.isNegatable = true ∧
        Clause.HasRoom assumptions conclusions) ∧
      all = Clause.implying assumptions conclusions := by
  by_cases h : (Clause.picked assumptions).all Literal.isNegatable = true ∧
      Clause.HasRoom assumptions conclusions
  · rw [distributed_of_hasRoom c h.1 h.2]
    exact ⟨fun heq => ⟨h, (Except.ok.inj heq).symm⟩, fun heq => congrArg _ heq.2.symm⟩
  · rw [distributed_of_not_hasRoom c h]
    exact iff_of_false (fun heq => by cases heq) fun heq => h heq.1

end Constraint

end Qualify
