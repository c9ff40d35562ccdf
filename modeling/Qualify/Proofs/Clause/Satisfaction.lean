import Mathlib.Data.List.Basic
import Qualify.Clause.Basic

namespace Qualify

def Satisfies (valuation : Valuation) (clauses : List Clause) : Prop :=
  ∀ clause ∈ clauses, Clause.holds valuation clause = true

instance (valuation : Valuation) (clauses : List Clause) :
    Decidable (Satisfies valuation clauses) :=
  inferInstanceAs (Decidable (∀ clause ∈ clauses, Clause.holds valuation clause = true))

-- Zero is the negation of itself, so it is kept out wherever a negation is to be read.
def NonZero (clauses : List Clause) : Prop :=
  ∀ clause ∈ clauses, ∀ l ∈ clause, l ≠ (0 : Literal)

theorem Literal.holds_neg (valuation : Valuation) {l : Int} (hl : l ≠ 0) :
    Literal.holds valuation (-l) = !Literal.holds valuation l := by
  unfold Literal.holds
  rw [Int.natAbs_neg]
  by_cases hpos : 0 < l
  · have hneg : ¬0 < -l := by omega
    simp only [hpos, hneg, if_true, if_false]
  · have hneg : 0 < -l := by omega
    simp only [hpos, hneg, if_true, if_false, Bool.not_not]

theorem Literal.neg_ne_self {l : Int} (hl : l ≠ 0) : -l ≠ l := by
  omega

theorem Literal.holds_natCast (valuation : Valuation) {n : Nat} (hn : 0 < n) :
    Literal.holds valuation (n : Int) = valuation n := by
  have hpos : (0 : Int) < n := by omega
  simp only [Literal.holds, hpos, if_true, Int.natAbs_natCast]

theorem Clause.holds_iff (valuation : Valuation) (clause : Clause) :
    Clause.holds valuation clause = true ↔ ∃ l ∈ clause, Literal.holds valuation l = true :=
  List.any_eq_true

theorem Literal.holds_congr {valuation other : Valuation} {l : Literal}
    (h : valuation l.natAbs = other l.natAbs) :
    Literal.holds valuation l = Literal.holds other l := by
  simp only [Literal.holds, h]

-- Only the values of the variables of a clause matter.
theorem Clause.holds_congr {valuation other : Valuation} {clause : Clause}
    (h : ∀ l ∈ clause, valuation l.natAbs = other l.natAbs) :
    Clause.holds valuation clause = Clause.holds other clause := by
  rw [Bool.eq_iff_iff, Clause.holds_iff, Clause.holds_iff]
  exact exists_congr fun l => and_congr_right fun hl => by rw [Literal.holds_congr (h l hl)]

@[simp] theorem Clause.holds_append (valuation : Valuation) (clause other : Clause) :
    Clause.holds valuation (clause ++ other) =
      (Clause.holds valuation clause || Clause.holds valuation other) :=
  List.any_append

@[simp] theorem Clause.holds_cons (valuation : Valuation) (l : Literal) (clause : Clause) :
    Clause.holds valuation (l :: clause) =
      (Literal.holds valuation l || Clause.holds valuation clause) :=
  List.any_cons

@[simp] theorem Clause.holds_nil (valuation : Valuation) : Clause.holds valuation [] = false :=
  rfl

@[simp] theorem satisfies_nil (valuation : Valuation) : Satisfies valuation [] := by
  intro clause hclause
  cases hclause

@[simp] theorem satisfies_cons (valuation : Valuation) (clause : Clause) (rest : List Clause) :
    Satisfies valuation (clause :: rest) ↔
      Clause.holds valuation clause = true ∧ Satisfies valuation rest :=
  List.forall_mem_cons

@[simp] theorem satisfies_append (valuation : Valuation) (clauses others : List Clause) :
    Satisfies valuation (clauses ++ others) ↔
      Satisfies valuation clauses ∧ Satisfies valuation others :=
  List.forall_mem_append

theorem satisfies_map {α : Type} (valuation : Valuation) (f : α → Clause) (items : List α) :
    Satisfies valuation (items.map f) ↔ ∀ a ∈ items, Clause.holds valuation (f a) = true :=
  List.forall_mem_map

theorem satisfies_flatMap {α : Type} (valuation : Valuation) (f : α → List Clause)
    (items : List α) :
    Satisfies valuation (items.flatMap f) ↔ ∀ a ∈ items, Satisfies valuation (f a) :=
  List.forall_mem_flatMap

-- A literal that stands in every clause switches all of them off at once.
theorem satisfies_map_append_singleton (valuation : Valuation) (clauses : List Clause)
    (l : Literal) :
    Satisfies valuation (clauses.map (· ++ [l])) ↔
      Literal.holds valuation l = true ∨ Satisfies valuation clauses := by
  rw [satisfies_map]
  by_cases hl : Literal.holds valuation l = true
  · simp [hl]
  · simp [hl, Satisfies]

theorem nonZero_append {clauses others : List Clause} :
    NonZero (clauses ++ others) ↔ NonZero clauses ∧ NonZero others :=
  List.forall_mem_append

def Refuted (valuation : Valuation) (clauses : List Clause) : Prop :=
  ∃ clause ∈ clauses, ∀ l ∈ clause, Literal.holds valuation (-l) = true

@[simp] theorem refuted_cons (valuation : Valuation) (clause : Clause) (rest : List Clause) :
    Refuted valuation (clause :: rest) ↔
      (∀ l ∈ clause, Literal.holds valuation (-l) = true) ∨ Refuted valuation rest := by
  simp [Refuted]

@[simp] theorem refuted_append (valuation : Valuation) (clauses others : List Clause) :
    Refuted valuation (clauses ++ others) ↔
      Refuted valuation clauses ∨ Refuted valuation others := by
  simp only [Refuted, List.mem_append, or_and_right, exists_or]

theorem refuted_map_append_singleton (valuation : Valuation) (clauses : List Clause)
    (l : Literal) :
    Refuted valuation (clauses.map (· ++ [l])) ↔
      Literal.holds valuation (-l) = true ∧ Refuted valuation clauses := by
  constructor
  · rintro ⟨longer, hlonger, hall⟩
    obtain ⟨clause, hclause, rfl⟩ := List.mem_map.mp hlonger
    rw [List.forall_mem_append, List.forall_mem_singleton] at hall
    exact ⟨hall.2, clause, hclause, hall.1⟩
  · rintro ⟨hl, clause, hclause, hall⟩
    refine ⟨clause ++ [l], List.mem_map_of_mem hclause, ?_⟩
    rw [List.forall_mem_append, List.forall_mem_singleton]
    exact ⟨hall, hl⟩

-- Zero is its own negation, so that this needs the literals to be proper ones.
theorem refuted_iff_not_satisfies (valuation : Valuation) {clauses : List Clause}
    (hzero : NonZero clauses) : Refuted valuation clauses ↔ ¬Satisfies valuation clauses := by
  have hclause : ∀ clause ∈ clauses, (∀ l ∈ clause, Literal.holds valuation (-l) = true) ↔
      ¬Clause.holds valuation clause = true := by
    intro clause hmem
    rw [Clause.holds_iff, not_exists]
    refine forall_congr' fun l => ?_
    rw [not_and]
    refine forall_congr' fun hl => ?_
    rw [Literal.holds_neg valuation (hzero clause hmem l hl), Bool.not_eq_true, Bool.not_eq_true']
  constructor
  · rintro ⟨clause, hmem, hall⟩ hsat
    exact (hclause clause hmem).mp hall (hsat clause hmem)
  · intro hnot
    simp only [Satisfies, not_forall] at hnot
    obtain ⟨clause, hmem, hfalse⟩ := hnot
    exact ⟨clause, hmem, (hclause clause hmem).mpr hfalse⟩

-- A refutation picks a literal of each clause, so all refutations hold exactly when one clause
-- has only literals whose negations hold.
theorem satisfies_refutations_iff (valuation : Valuation) (clauses : List Clause) :
    Satisfies valuation (Clause.refutations clauses) ↔ Refuted valuation clauses := by
  induction clauses with
  | nil => simp [Clause.refutations, Satisfies, Refuted]
  | cons clause rest ih =>
      have hpick : ∀ l : Literal,
          Satisfies valuation ((Clause.refutations rest).map (-l :: ·)) ↔
            Literal.holds valuation (-l) = true ∨ Refuted valuation rest := by
        intro l
        rw [satisfies_map, ← ih]
        by_cases hholds : Literal.holds valuation (-l) = true
        · simp [hholds]
        · simp [hholds, Satisfies]
      rw [Clause.refutations, satisfies_flatMap, refuted_cons]
      by_cases hrest : Refuted valuation rest <;> simp [hpick, hrest]

-- A refutation picks one literal from each clause and negates it; refuting it means that every
-- picked literal holds.
theorem refuted_refutations_iff (valuation : Valuation) (clauses : List Clause) :
    Refuted valuation (Clause.refutations clauses) ↔ Satisfies valuation clauses := by
  induction clauses with
  | nil => simp [Clause.refutations, Refuted]
  | cons clause rest ih =>
      rw [Clause.refutations, satisfies_cons, Clause.holds_iff, ← ih]
      constructor
      · rintro ⟨refutation, hmem, hall⟩
        obtain ⟨l, hl, hmem⟩ := List.mem_flatMap.mp hmem
        obtain ⟨tail, htail, rfl⟩ := List.mem_map.mp hmem
        rw [List.forall_mem_cons, Int.neg_neg] at hall
        exact ⟨⟨l, hl, hall.1⟩, tail, htail, hall.2⟩
      · rintro ⟨⟨l, hl, hholds⟩, tail, htail, hall⟩
        refine ⟨-l :: tail, List.mem_flatMap.mpr ⟨l, hl, List.mem_map_of_mem htail⟩, ?_⟩
        rw [List.forall_mem_cons, Int.neg_neg]
        exact ⟨hholds, hall⟩

theorem satisfies_implying_iff (valuation : Valuation) (assumptions conclusions : List Clause) :
    Satisfies valuation (Clause.implying assumptions conclusions) ↔
      Refuted valuation assumptions ∨ Satisfies valuation conclusions := by
  have hone : ∀ refutation, Satisfies valuation (conclusions.map (refutation ++ ·)) ↔
      Clause.holds valuation refutation = true ∨ Satisfies valuation conclusions := by
    intro refutation
    rw [satisfies_map]
    by_cases hholds : Clause.holds valuation refutation = true
    · simp [hholds]
    · simp [hholds, Satisfies]
  rw [Clause.implying, satisfies_flatMap, ← satisfies_refutations_iff]
  by_cases hsat : Satisfies valuation conclusions
  · simp [hone, hsat]
  · simp only [hone, hsat, or_false]
    exact Iff.rfl

theorem refuted_implying_iff (valuation : Valuation) (assumptions conclusions : List Clause) :
    Refuted valuation (Clause.implying assumptions conclusions) ↔
      Satisfies valuation assumptions ∧ Refuted valuation conclusions := by
  rw [← refuted_refutations_iff]
  constructor
  · rintro ⟨clause, hmem, hall⟩
    obtain ⟨refutation, hrefutation, hmem⟩ := List.mem_flatMap.mp hmem
    obtain ⟨conclusion, hconclusion, rfl⟩ := List.mem_map.mp hmem
    rw [List.forall_mem_append] at hall
    exact ⟨⟨refutation, hrefutation, hall.1⟩, conclusion, hconclusion, hall.2⟩
  · rintro ⟨⟨refutation, hrefutation, hall⟩, conclusion, hconclusion, hall'⟩
    exact ⟨refutation ++ conclusion,
      List.mem_flatMap.mpr ⟨refutation, hrefutation, List.mem_map_of_mem hconclusion⟩,
      List.forall_mem_append.mpr ⟨hall, hall'⟩⟩

theorem satisfies_implying (valuation : Valuation) (assumptions conclusions : List Clause)
    (hzero : NonZero assumptions) :
    Satisfies valuation (Clause.implying assumptions conclusions) ↔
      (Satisfies valuation assumptions → Satisfies valuation conclusions) := by
  rw [satisfies_implying_iff, refuted_iff_not_satisfies valuation hzero, imp_iff_not_or]

theorem forall_mem_pairsOf {α : Type} (related : α → α → Prop) (items : List α) :
    (∀ pair ∈ Clause.pairsOf items, related pair.1 pair.2) ↔ items.Pairwise related := by
  induction items with
  | nil => simp [Clause.pairsOf]
  | cons a rest ih =>
      rw [Clause.pairsOf, List.forall_mem_append, List.forall_mem_map, ih, List.pairwise_cons]

theorem mem_of_mem_pairsOf {α : Type} {items : List α} {pair : α × α}
    (hpair : pair ∈ Clause.pairsOf items) : pair.1 ∈ items ∧ pair.2 ∈ items := by
  induction items with
  | nil => cases hpair
  | cons a rest ih =>
      rcases List.mem_append.mp hpair with hfirst | hrest
      · obtain ⟨b, hb, rfl⟩ := List.mem_map.mp hfirst
        exact ⟨List.mem_cons_self, List.mem_cons_of_mem _ hb⟩
      · have hboth := ih hrest
        exact ⟨List.mem_cons_of_mem _ hboth.1, List.mem_cons_of_mem _ hboth.2⟩

theorem satisfies_atMostOne (valuation : Valuation) (literals : List Literal)
    (hzero : ∀ l ∈ literals, l ≠ 0) :
    Satisfies valuation (Clause.atMostOne literals) ↔
      literals.Pairwise fun a b =>
        ¬(Literal.holds valuation a = true ∧ Literal.holds valuation b = true) := by
  rw [Clause.atMostOne, satisfies_map, ← forall_mem_pairsOf]
  refine forall₂_congr fun pair hpair => ?_
  obtain ⟨ha, hb⟩ := mem_of_mem_pairsOf hpair
  simp only [Clause.holds_cons, Clause.holds_nil, Bool.or_false,
    Literal.holds_neg valuation (hzero _ ha), Literal.holds_neg valuation (hzero _ hb)]
  cases Literal.holds valuation pair.1 <;> cases Literal.holds valuation pair.2 <;> simp

theorem satisfies_exactlyOne (valuation : Valuation) (literals : List Literal)
    (hzero : ∀ l ∈ literals, l ≠ 0) :
    Satisfies valuation (Clause.exactlyOne literals) ↔
      (∃ l ∈ literals, Literal.holds valuation l = true) ∧
        literals.Pairwise fun a b =>
          ¬(Literal.holds valuation a = true ∧ Literal.holds valuation b = true) := by
  rw [Clause.exactlyOne, satisfies_cons, Clause.holds_iff,
    satisfies_atMostOne valuation literals hzero]

theorem Literal.narrow_natCast {n : Nat} (hn : n < 0x80000000) : Literal.narrow (n : Int) = n :=
  Int.bmod_eq_of_le (by omega) (by omega)

theorem Literal.isWithin_natCast {count n : Nat} (hpos : 0 < n) (hle : n ≤ count) :
    Literal.isWithin count (n : Int) = true := by
  have hne : (n : Int) ≠ 0 := by omega
  simp [Literal.isWithin, bne_iff_ne.mpr hne, hle]

@[simp] theorem Literal.isWithin_neg (count : Nat) (l : Int) :
    Literal.isWithin count (-l) = Literal.isWithin count l := by
  have hzero : ((-l) != 0) = (l != 0) := by
    rw [Bool.eq_iff_iff, bne_iff_ne, bne_iff_ne]
    omega
  simp only [Literal.isWithin, Int.natAbs_neg]
  exact congrArg (· && _) hzero

theorem Literal.ne_zero_of_isWithin {count : Nat} {l : Int} (h : Literal.isWithin count l = true) :
    l ≠ 0 := by
  simp only [Literal.isWithin, Bool.and_eq_true, bne_iff_ne] at h
  exact h.1

theorem Literal.isWithin_narrow {n : Int} (h : Literal.narrow n ≠ 0) :
    Literal.isWithin 0x80000000 (Literal.narrow n) = true := by
  have hlower : -0x80000000 ≤ Int.bmod n 0x100000000 := Int.le_bmod (by decide)
  have hupper : Int.bmod n 0x100000000 < 0x80000000 := Int.bmod_lt (by decide)
  have hle : (Int.bmod n 0x100000000).natAbs ≤ 0x80000000 := by omega
  simp only [Literal.isWithin, Bool.and_eq_true, decide_eq_true_eq, bne_iff_ne]
  exact ⟨h, hle⟩

def Within (count : Nat) (clauses : List Clause) : Prop :=
  ∀ clause ∈ clauses, ∀ l ∈ clause, Literal.isWithin count l = true

theorem Within.nonZero {count : Nat} {clauses : List Clause} (h : Within count clauses) :
    NonZero clauses :=
  fun clause hclause l hl => Literal.ne_zero_of_isWithin (h clause hclause l hl)

theorem Literal.holds_of_isWithin {count : Nat} {valuation other : Valuation}
    (hsame : ∀ n ≤ count, other n = valuation n) {l : Literal}
    (h : Literal.isWithin count l = true) : Literal.holds other l = Literal.holds valuation l := by
  simp only [Literal.isWithin, Bool.and_eq_true, decide_eq_true_eq] at h
  exact Literal.holds_congr (hsame _ h.2)

-- Values of variables that do not occur do not matter.
theorem Within.satisfies_congr {count : Nat} {clauses : List Clause} (h : Within count clauses)
    {valuation other : Valuation} (hsame : ∀ n ≤ count, other n = valuation n) :
    Satisfies other clauses ↔ Satisfies valuation clauses := by
  refine forall₂_congr fun clause hclause => ?_
  rw [Clause.holds_iff, Clause.holds_iff]
  refine exists_congr fun l => and_congr_right fun hl => ?_
  rw [Literal.holds_of_isWithin hsame (h clause hclause l hl)]

theorem exists_of_mem_refutations {clauses : List Clause} {refutation : Clause} {l : Literal}
    (h : refutation ∈ Clause.refutations clauses) (hl : l ∈ refutation) :
    ∃ clause ∈ clauses, -l ∈ clause := by
  induction clauses generalizing refutation with
  | nil =>
      obtain rfl := List.mem_singleton.mp h
      cases hl
  | cons clause rest ih =>
      obtain ⟨first, hfirst, h⟩ := List.mem_flatMap.mp h
      obtain ⟨tail, htail, rfl⟩ := List.mem_map.mp h
      rcases List.mem_cons.mp hl with rfl | hl
      · exact ⟨clause, List.mem_cons_self, by rwa [Int.neg_neg]⟩
      · obtain ⟨other, hother, hmem⟩ := ih htail hl
        exact ⟨other, List.mem_cons_of_mem _ hother, hmem⟩

end Qualify
