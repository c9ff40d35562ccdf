import Mathlib.Data.List.Forall2
import Qualify.Constraint.Digest
import Qualify.Constraint.Equality
import Qualify.Proofs.Constraint.Meaning

namespace Qualify

namespace Constraint

theorem sameAll_iff {parts others : List Constraint} :
    sameAll parts others = true ↔ List.Forall₂ (fun c d => c.same d = true) parts others := by
  induction parts generalizing others with
  | nil => cases others <;> simp [sameAll]
  | cons c rest ih =>
      cases others with
      | nil => simp [sameAll]
      | cons d others => simp [sameAll, ih]

-- Induction over two constraints that are the same and over their parts in pairs. The operands of
-- a relation stand in the same order or, if it is symmetric, in the opposite one.
theorem same_induction {motive : Constraint → Constraint → Prop}
    (alwaysTrue : motive .alwaysTrue .alwaysTrue) (alwaysFalse : motive .alwaysFalse .alwaysFalse)
    (relation : ∀ kind first second location location',
      motive (.relation kind first second location) (.relation kind first second location'))
    (swapped : ∀ kind first second location location', kind.isSymmetric = true →
      motive (.relation kind first second location) (.relation kind second first location'))
    (function : ∀ table left right result location location',
      motive (.function table left right result location)
        (.function table left right result location'))
    (preference : ∀ subject goal q q' weight weight' location location',
      motive (.preference subject goal q weight location)
        (.preference subject goal q' weight' location'))
    (existential : ∀ potential present present' absent absent' location location',
      List.Forall₂ motive present present' → List.Forall₂ motive absent absent' →
      motive (.existential potential present absent location)
        (.existential potential present' absent' location'))
    (implication : ∀ assumptions assumptions' conclusion conclusion' location location',
      List.Forall₂ motive assumptions assumptions' → motive conclusion conclusion' →
      motive (.implication assumptions conclusion location)
        (.implication assumptions' conclusion' location'))
    {c d : Constraint} (h : c.same d = true) : motive c d := by
  have hparts : ∀ {parts others : List Constraint}, sameAll parts others = true →
      (∀ part ∈ parts, ∀ d, part.same d = true → motive part d) →
      List.Forall₂ motive parts others := by
    intro parts others hsame ih
    have hboth := (List.forall₂_and_left parts others).mpr ⟨ih, sameAll_iff.mp hsame⟩
    exact hboth.imp fun part d hpart => hpart.1 d hpart.2
  induction c generalizing d with
  | alwaysTrue =>
      cases d with
      | alwaysTrue => exact alwaysTrue
      | _ => cases h
  | alwaysFalse =>
      cases d with
      | alwaysFalse => exact alwaysFalse
      | _ => cases h
  | relation kind first second location =>
      cases d with
      | relation kind' first' second' location' =>
          simp only [same, Bool.and_eq_true, Bool.or_eq_true, beq_iff_eq] at h
          obtain ⟨rfl, ⟨rfl, rfl⟩ | ⟨⟨hsymmetric, rfl⟩, rfl⟩⟩ := h
          · exact relation kind first second location location'
          · exact swapped kind first second location location' hsymmetric
      | _ => cases h
  | function table left right result location =>
      cases d with
      | function table' left' right' result' location' =>
          simp only [same, Bool.and_eq_true, beq_iff_eq] at h
          obtain ⟨⟨⟨rfl, rfl⟩, rfl⟩, rfl⟩ := h
          exact function table left right result location location'
      | _ => cases h
  | preference subject goal q weight location =>
      cases d with
      | preference subject' goal' q' weight' location' =>
          simp only [same, Bool.and_eq_true, beq_iff_eq] at h
          obtain ⟨rfl, rfl⟩ := h
          exact preference subject goal q q' weight weight' location location'
      | _ => cases h
  | existential potential present absent location ihpresent ihabsent =>
      cases d with
      | existential potential' present' absent' location' =>
          simp only [same, Bool.and_eq_true, beq_iff_eq] at h
          obtain ⟨⟨rfl, hpresent⟩, habsent⟩ := h
          exact existential potential present present' absent absent' location location'
            (hparts hpresent fun part hpart d => ihpresent part hpart)
            (hparts habsent fun part hpart d => ihabsent part hpart)
      | _ => cases h
  | implication assumptions conclusion location ihassumptions ihconclusion =>
      cases d with
      | implication assumptions' conclusion' location' =>
          simp only [same, Bool.and_eq_true] at h
          exact implication assumptions assumptions' conclusion conclusion' location location'
            (hparts h.1 fun part hpart d => ihassumptions part hpart) (ihconclusion h.2)
      | _ => cases h

theorem same_refl (c : Constraint) : c.same c = true := by
  induction c with
  | alwaysTrue => rfl
  | alwaysFalse => rfl
  | relation kind first second location => simp [same]
  | function table left right result location => simp [same]
  | preference subject goal q weight location => simp [same]
  | existential potential present absent location ihpresent ihabsent =>
      simpa [same, sameAll_iff] using ⟨ihpresent, ihabsent⟩
  | implication assumptions conclusion location ihassumptions ihconclusion =>
      simpa [same, sameAll_iff] using ⟨ihassumptions, ihconclusion⟩

theorem same_symm {c d : Constraint} (h : c.same d = true) : d.same c = true := by
  refine same_induction (motive := fun c d => d.same c = true) rfl rfl ?_ ?_ ?_ ?_ ?_ ?_ h
  · intro kind first second location location'
    simp [same]
  · intro kind first second location location' hsymmetric
    simp [same, hsymmetric]
  · intro table left right result location location'
    simp [same]
  · intro subject goal q q' weight weight' location location'
    simp [same]
  · intro potential present present' absent absent' location location' hpresent habsent
    simp [same, sameAll_iff, hpresent.flip, habsent.flip]
  · intro assumptions assumptions' conclusion conclusion' location location' hassumptions
      hconclusion
    simp [same, sameAll_iff, hassumptions.flip, hconclusion]

theorem sameAll_trans {parts others thirds : List Constraint}
    (h : List.Forall₂ (fun c d => ∀ e : Constraint, d.same e = true → c.same e = true) parts others)
    (h' : sameAll others thirds = true) : sameAll parts thirds = true := by
  rw [sameAll_iff] at h' ⊢
  induction h generalizing thirds with
  | nil => exact h'
  | cons hfirst hrest ih =>
      cases h' with
      | cons hfirst' hrest' => exact .cons (hfirst _ hfirst') (ih hrest')

-- By induction on the first pair; a symmetric relation turned round twice is where both orders
-- meet.
theorem same_trans {c d e : Constraint} (h : c.same d = true) (h' : d.same e = true) :
    c.same e = true := by
  refine same_induction (motive := fun c d => ∀ e : Constraint, d.same e = true → c.same e = true)
    (fun _ => id) (fun _ => id) ?_ ?_ ?_ ?_ ?_ ?_ h e h'
  · intro kind first second location location' e
    cases e <;> simp [same]
  · intro kind first second location location' hsymmetric e
    cases e with
    | relation kind' first' second' location'' =>
        simp only [same, hsymmetric, Bool.true_and, Bool.and_eq_true, Bool.or_eq_true]
        tauto
    | _ => simp [same]
  · intro table left right result location location' e
    cases e <;> simp [same]
  · intro subject goal q q' weight weight' location location' e
    cases e <;> simp [same]
  · intro potential present present' absent absent' location location' hpresent habsent e
    cases e with
    | existential potential'' present'' absent'' location'' =>
        simp only [same, Bool.and_eq_true]
        rintro ⟨⟨hpotential, hpresent'⟩, habsent'⟩
        exact ⟨⟨hpotential, sameAll_trans hpresent hpresent'⟩, sameAll_trans habsent habsent'⟩
    | _ => simp [same]
  · intro assumptions assumptions' conclusion conclusion' location location' hassumptions
      hconclusion e
    cases e with
    | implication assumptions'' conclusion'' location'' =>
        simp only [same, Bool.and_eq_true]
        rintro ⟨hassumptions', hconclusion'⟩
        exact ⟨sameAll_trans hassumptions hassumptions', hconclusion _ hconclusion'⟩
    | _ => simp [same]

theorem same_comm (c d : Constraint) : c.same d = d.same c :=
  Bool.eq_iff_iff.mpr ⟨same_symm, same_symm⟩

theorem digestOfAll_eq {parts others : List Constraint}
    (h : List.Forall₂ (fun c d => c.digest = d.digest) parts others) :
    digestOfAll parts = digestOfAll others := by
  induction h with
  | nil => rfl
  | cons hfirst _ ih => rw [digestOfAll, digestOfAll, hfirst, ih]

-- What is the same is found in the same place of an index.
theorem digest_eq_of_same {c d : Constraint} (h : c.same d = true) : c.digest = d.digest := by
  refine same_induction (motive := fun c d => c.digest = d.digest) rfl rfl ?_ ?_ ?_ ?_ ?_ ?_ h
  · exact fun _ _ _ _ _ => rfl
  · intro kind first second location location' hsymmetric
    simp only [digest, digestOperands, hsymmetric, if_true, Nat.add_comm]
  · intro table left right result location location'
    cases table <;> rfl
  · exact fun _ _ _ _ _ _ _ _ => rfl
  · intro potential present present' absent absent' location location' hpresent habsent
    rw [digest, digest, hpresent.length_eq, habsent.length_eq, digestOfAll_eq hpresent,
      digestOfAll_eq habsent]
  · intro assumptions assumptions' conclusion conclusion' location location' hassumptions
      hconclusion
    rw [digest, digest, hassumptions.length_eq, digestOfAll_eq hassumptions, hconclusion]

end Constraint

end Qualify
