import Qualify.Proofs.Term.Subterms

namespace Qualify

namespace Term

-- Nothing inside the term can be folded, flattened or left out.
structure Normal (term : Term) : Prop where
  const_notMem : ∀ value, const value ∉ term.subterms
  and_flat : ∀ terms, and terms ∈ term.subterms → ∀ inner, and inner ∉ terms
  or_flat : ∀ terms, or terms ∈ term.subterms → ∀ inner, or inner ∉ terms
  and_length : ∀ terms, and terms ∈ term.subterms → 2 ≤ terms.length
  or_length : ∀ terms, or terms ∈ term.subterms → 2 ≤ terms.length
  not_not_notMem : ∀ inner, not (not inner) ∉ term.subterms
  same_self_notMem : ∀ id, same id id ∉ term.subterms

def Settled : Term → Prop
  | const _ => False
  | and terms => 2 ≤ terms.length ∧ ∀ inner, and inner ∉ terms
  | or terms => 2 ≤ terms.length ∧ ∀ inner, or inner ∉ terms
  | not term => ∀ inner, term ≠ not inner
  | same first second => first ≠ second
  | _ => True

-- Normality is a property of each subterm by itself.
theorem normal_iff_settled {term : Term} : term.Normal ↔ ∀ s ∈ term.subterms, s.Settled := by
  constructor
  · intro h s hs
    cases s with
    | const value => exact h.const_notMem value hs
    | and terms => exact ⟨h.and_length terms hs, h.and_flat terms hs⟩
    | or terms => exact ⟨h.or_length terms hs, h.or_flat terms hs⟩
    | not inner =>
        rintro other rfl
        exact h.not_not_notMem other hs
    | same first second =>
        rintro rfl
        exact h.same_self_notMem first hs
    | _ => trivial
  · intro h
    exact {
      const_notMem := fun value hs => h _ hs
      and_flat := fun terms hs => (h _ hs).2
      or_flat := fun terms hs => (h _ hs).2
      and_length := fun terms hs => (h _ hs).1
      or_length := fun terms hs => (h _ hs).1
      not_not_notMem := fun inner hs => h _ hs inner rfl
      same_self_notMem := fun id hs => h _ hs rfl }

theorem not_normal_const (value : Bool) : ¬(const value).Normal :=
  fun h => h.const_notMem value List.mem_cons_self

theorem normal_not {term : Term} :
    (not term).Normal ↔ (∀ inner, term ≠ not inner) ∧ term.Normal := by
  rw [normal_iff_settled, normal_iff_settled, subterms, List.forall_mem_cons]
  exact Iff.rfl

theorem normal_implies {antecedent consequent : Term} :
    (implies antecedent consequent).Normal ↔ antecedent.Normal ∧ consequent.Normal := by
  rw [normal_iff_settled, normal_iff_settled, normal_iff_settled, subterms, List.forall_mem_cons,
    List.forall_mem_append]
  exact and_iff_right trivial

theorem normal_of_isAtom {term : Term} (hatom : term.isAtom = true) (h : term.Settled) :
    term.Normal := by
  rw [normal_iff_settled]
  cases term with
  | «exists» | is | same | range => exact List.forall_mem_singleton.mpr h
  | _ => cases hatom

def Simplified (term : Term) : Prop :=
  (∃ value, term = const value) ∨ term.Normal

theorem Simplified.normal {term : Term} (h : term.Simplified) (hne : ∀ value, term ≠ const value) :
    term.Normal :=
  h.resolve_left fun ⟨value, heq⟩ => hne value heq

end Term

namespace Junction

open Term

variable (j : Junction)

theorem settled_build {terms : List Term} :
    (j.build terms).Settled ↔ 2 ≤ terms.length ∧ ∀ inner, j.build inner ∉ terms := by
  cases j <;> exact Iff.rfl

theorem normal_build {terms : List Term} :
    (j.build terms).Normal ↔
      (2 ≤ terms.length ∧ ∀ inner, j.build inner ∉ terms) ∧ ∀ term ∈ terms, term.Normal := by
  rw [normal_iff_settled, subterms_build, List.forall_mem_cons, settled_build,
    List.forall_mem_flatMap]
  exact and_congr_right fun _ => forall₂_congr fun term _ => normal_iff_settled.symm

-- What a simplified member adds is normal, and not of the kind that it is added to.
theorem mem_members {term part : Term} (h : term.Simplified) (hne : term ≠ .const j.absorbing)
    (hpart : part ∈ j.members term) : part.Normal ∧ ∀ inner, part ≠ j.build inner := by
  rcases j.members_cases term with ⟨-, heq⟩ | ⟨terms, rfl, heq⟩ | ⟨hneutral, hkind, heq⟩ <;>
    rw [heq] at hpart
  · cases hpart
  · have hnormal : (j.build terms).Normal := h.normal fun value heq => by cases j <;> cases heq
    obtain ⟨⟨-, hflat⟩, hterms⟩ := j.normal_build.mp hnormal
    exact ⟨hterms part hpart, fun inner heq => hflat inner (heq ▸ hpart)⟩
  · obtain rfl := List.mem_singleton.mp hpart
    refine ⟨h.normal fun value heq => ?_, hkind⟩
    by_cases habsorbing : value = j.absorbing
    · exact hne (habsorbing ▸ heq)
    · exact hneutral (Bool.eq_not.mpr habsorbing ▸ heq)

theorem simplified_join {terms : List Term} (h : ∀ term ∈ terms, term.Simplified) :
    (j.join terms).Simplified := by
  rcases j.join_cases terms with ⟨-, heq⟩ | ⟨habsorbing, hcases⟩
  · exact .inl ⟨_, heq⟩
  · have hflat : ∀ part ∈ terms.flatMap j.members,
        part.Normal ∧ ∀ inner, part ≠ j.build inner := by
      refine List.forall_mem_flatMap.mpr fun term hterm part hpart => ?_
      exact j.mem_members (h term hterm) (fun heq => habsorbing (heq ▸ hterm)) hpart
    rcases hcases with ⟨-, heq⟩ | ⟨part, hone, heq⟩ | ⟨hlength, heq⟩ <;> rw [heq]
    · exact .inl ⟨_, rfl⟩
    · exact .inr (hflat part (hone ▸ List.mem_singleton_self part)).1
    · refine .inr (j.normal_build.mpr ⟨⟨hlength, fun inner hmem => ?_⟩, fun part hpart => ?_⟩)
      · exact (hflat _ hmem).2 inner rfl
      · exact (hflat part hpart).1

theorem simplified_simplify_build {terms : List Term}
    (ih : ∀ term ∈ terms, term.simplify.Simplified) : (j.build terms).simplify.Simplified := by
  rw [simplify_build]
  exact j.simplified_join (List.forall_mem_map.mpr ih)

-- Members that are normal and of another kind are put together as they are.
theorem join_of_normal {terms : List Term} (h : (j.build terms).Normal) :
    j.join terms = j.build terms := by
  obtain ⟨⟨hlength, hkind⟩, hnormal⟩ := j.normal_build.mp h
  have hconst : ∀ value, Term.const value ∉ terms :=
    fun value hmem => not_normal_const value (hnormal _ hmem)
  have hmembers : terms.flatMap j.members = terms := by
    refine (List.flatMap_congr fun term hterm => ?_).trans (List.flatMap_singleton' terms)
    rcases j.members_cases term with ⟨rfl, -⟩ | ⟨inner, rfl, -⟩ | ⟨-, -, heq⟩
    · exact absurd hterm (hconst _)
    · exact absurd hterm (hkind inner)
    · exact heq
  rcases j.join_cases terms with ⟨hmem, -⟩ | ⟨-, ⟨hnil, -⟩ | ⟨term, hone, -⟩ | ⟨-, heq⟩⟩
  · exact absurd hmem (hconst _)
  · rw [← hmembers, hnil] at hlength
    cases hlength
  · rw [← hmembers, hone] at hlength
    simp at hlength
  · rw [heq, hmembers]

theorem simplify_of_normal {terms : List Term}
    (ih : ∀ term ∈ terms, term.Simplified → term.simplify = term)
    (h : (j.build terms).Normal) : (j.build terms).simplify = j.build terms := by
  have hterms : terms.map simplify = terms :=
    (List.map_congr_left fun term hterm =>
      ih term hterm (.inr ((j.normal_build.mp h).2 term hterm))).trans (List.map_id terms)
  rw [simplify_build, hterms, j.join_of_normal h]

end Junction

namespace Term

theorem negate_of_normal {term : Term} (h : (not term).Normal) : negate term = not term := by
  obtain ⟨hnot, hnormal⟩ := normal_not.mp h
  cases term with
  | const value => exact absurd hnormal (not_normal_const value)
  | not inner => exact absurd rfl (hnot inner)
  | _ => rfl

theorem simplified_negate {term : Term} (h : term.Simplified) : term.negate.Simplified := by
  cases term with
  | const value => exact .inl ⟨_, rfl⟩
  | not inner =>
      have hnormal := h.normal (by simp)
      exact .inr (normal_not.mp hnormal).2
  | _ =>
      have hnormal := h.normal (by simp)
      exact .inr (normal_not.mpr ⟨by simp, hnormal⟩)

theorem implication_of_normal {antecedent consequent : Term} (hantecedent : antecedent.Normal)
    (hconsequent : consequent.Normal) :
    implication antecedent consequent = implies antecedent consequent := by
  unfold implication
  split
  · exact absurd hantecedent (not_normal_const _)
  · exact absurd hantecedent (not_normal_const _)
  · exact absurd hconsequent (not_normal_const _)
  · exact absurd hconsequent (not_normal_const _)
  · rfl

-- A constant on either side decides the implication or reduces it to the other side.
theorem simplified_implication {antecedent consequent : Term} (hantecedent : antecedent.Simplified)
    (hconsequent : consequent.Simplified) : (implication antecedent consequent).Simplified := by
  rcases hantecedent with ⟨value, rfl⟩ | hnormal
  · cases value with
    | false => exact .inl ⟨true, rfl⟩
    | true => exact hconsequent
  · rcases hconsequent with ⟨value, rfl⟩ | hconsequent
    · cases value with
      | false =>
          have hnegate : implication antecedent (const false) = negate antecedent := by
            cases antecedent with
            | const value => exact absurd hnormal (not_normal_const value)
            | _ => rfl
          rw [hnegate]
          exact simplified_negate (.inr hnormal)
      | true =>
          left
          cases antecedent with
          | const value => exact absurd hnormal (not_normal_const value)
          | _ => exact ⟨true, rfl⟩
    · rw [implication_of_normal hnormal hconsequent]
      exact .inr (normal_implies.mpr ⟨hnormal, hconsequent⟩)

-- By induction on the term: each constructor is rebuilt from simplified parts.
theorem simplified_simplify (term : Term) : term.simplify.Simplified := by
  induction term with
  | const value => exact .inl ⟨value, rfl⟩
  | and terms ih => exact Junction.all.simplified_simplify_build ih
  | or terms ih => exact Junction.any.simplified_simplify_build ih
  | not term ih => exact simplified_negate ih
  | implies antecedent consequent ihantecedent ihconsequent =>
      exact simplified_implication ihantecedent ihconsequent
  | same first second =>
      rw [simplify]
      split
      · exact .inl ⟨true, rfl⟩
      · rename_i hne
        exact .inr (normal_of_isAtom rfl hne)
  | exists_ potential => exact .inr (normal_of_isAtom rfl trivial)
  | is id q => exact .inr (normal_of_isAtom rfl trivial)
  | range id bound => exact .inr (normal_of_isAtom rfl trivial)

-- By induction on the term: no rule applies to a normal one, so that rebuilding it changes
-- nothing.
theorem simplify_of_simplified (term : Term) (h : term.Simplified) : term.simplify = term := by
  induction term with
  | and terms ih => exact Junction.all.simplify_of_normal ih (h.normal (by simp))
  | or terms ih => exact Junction.any.simplify_of_normal ih (h.normal (by simp))
  | not term ih =>
      have hnormal := h.normal (by simp)
      rw [simplify, ih (.inr (normal_not.mp hnormal).2), negate_of_normal hnormal]
  | implies antecedent consequent ihantecedent ihconsequent =>
      obtain ⟨ha, hc⟩ := normal_implies.mp (h.normal (by simp))
      rw [simplify, ihantecedent (.inr ha), ihconsequent (.inr hc), implication_of_normal ha hc]
  | same first second =>
      have hne : first ≠ second := by
        rintro rfl
        exact (h.normal (by simp)).same_self_notMem first List.mem_cons_self
      rw [simplify, if_neg hne]
  | _ => rfl

-- An implication of something false leaves a negation behind, and it makes no difference whether
-- this is simplified again.
theorem simplify_implies_of_false {antecedent consequent : Term}
    (h : consequent.simplify = const false) :
    (implies antecedent consequent).simplify = (not antecedent.simplify).simplify := by
  rw [simplify, simplify, h, simplify_of_simplified _ (simplified_simplify antecedent)]
  cases antecedent.simplify with
  | const value => cases value <;> rfl
  | _ => rfl

-- Simplifying leaves nothing to be simplified, and it does nothing where nothing is left to do.
theorem simplify_normalizes (term : Term) :
    ((∃ value, term.simplify = const value) ∨ term.simplify.Normal) ∧
      term.simplify.simplify = term.simplify ∧
      (term.simplify = term ↔ (∃ value, term = const value) ∨ term.Normal) := by
  have hsimplified := simplified_simplify term
  refine ⟨hsimplified, simplify_of_simplified _ hsimplified, fun heq => ?_, fun h => ?_⟩
  · rw [heq] at hsimplified
    exact hsimplified
  · exact simplify_of_simplified term h

end Term

end Qualify
