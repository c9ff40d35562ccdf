import Qualify.Proofs.Term.Simplify

namespace Qualify

namespace Term

mutual

def subterms : Term → List Term
  | and terms => and terms :: subtermsOfAll terms
  | or terms => or terms :: subtermsOfAll terms
  | not term => not term :: subterms term
  | implies antecedent consequent =>
      implies antecedent consequent :: (subterms antecedent ++ subterms consequent)
  | term => [term]

def subtermsOfAll : List Term → List Term
  | [] => []
  | term :: rest => subterms term ++ subtermsOfAll rest

end

theorem subtermsOfAll_eq (terms : List Term) : subtermsOfAll terms = terms.flatMap subterms := by
  induction terms with
  | nil => rfl
  | cons term rest ih => rw [subtermsOfAll, ih, List.flatMap_cons]

def isAtom : Term → Bool
  | .exists _ => true
  | is .. => true
  | same .. => true
  | range .. => true
  | _ => false

def atoms (term : Term) : List Term :=
  term.subterms.filter isAtom

theorem notMem_subterms_const {s : Term} (hatom : s.isAtom = true) (value : Bool) :
    s ∉ (const value).subterms := by
  intro hmem
  rw [List.mem_singleton.mp hmem] at hatom
  cases hatom

end Term

namespace Junction

open Term

variable (j : Junction)

theorem subterms_build (terms : List Term) :
    (j.build terms).subterms = j.build terms :: terms.flatMap subterms := by
  cases j <;> exact congrArg _ (subtermsOfAll_eq terms)

theorem isAtom_build (terms : List Term) : (j.build terms).isAtom = false := by
  cases j <;> rfl

theorem subterms_subset_of_mem_members {term part : Term} (h : part ∈ j.members term) :
    part.subterms ⊆ term.subterms := by
  rcases j.members_cases term with ⟨-, heq⟩ | ⟨terms, rfl, heq⟩ | ⟨-, -, heq⟩ <;> rw [heq] at h
  · cases h
  · intro s hs
    rw [subterms_build]
    exact List.mem_cons_of_mem _ (List.mem_flatMap.mpr ⟨part, h, hs⟩)
  · rw [List.mem_singleton.mp h]
    exact List.Subset.refl _

-- Joining makes up a constant or a term of its own kind, and nothing else.
theorem mem_of_mem_subterms_join {terms : List Term} {s : Term} (hatom : s.isAtom = true)
    (h : s ∈ (j.join terms).subterms) : ∃ term ∈ terms, s ∈ term.subterms := by
  have hpart : ∀ part ∈ terms.flatMap j.members, s ∈ part.subterms →
      ∃ term ∈ terms, s ∈ term.subterms := by
    intro part hmem hs
    obtain ⟨term, hterm, hpart⟩ := List.mem_flatMap.mp hmem
    exact ⟨term, hterm, j.subterms_subset_of_mem_members hpart hs⟩
  rcases j.join_cases terms with
    ⟨-, heq⟩ | ⟨-, ⟨-, heq⟩ | ⟨part, hone, heq⟩ | ⟨-, heq⟩⟩ <;> rw [heq] at h
  · exact absurd h (notMem_subterms_const hatom _)
  · exact absurd h (notMem_subterms_const hatom _)
  · exact hpart part (hone ▸ List.mem_singleton_self part) h
  · rw [subterms_build] at h
    rcases List.mem_cons.mp h with rfl | h
    · cases hatom.symm.trans (j.isAtom_build _)
    · obtain ⟨part, hmem, hs⟩ := List.mem_flatMap.mp h
      exact hpart part hmem hs

theorem mem_subterms_build_of_join {terms : List Term}
    (ih : ∀ term ∈ terms, ∀ s, s.isAtom = true → s ∈ term.simplify.subterms → s ∈ term.subterms)
    {s : Term} (hatom : s.isAtom = true) (h : s ∈ (j.build terms).simplify.subterms) :
    s ∈ (j.build terms).subterms := by
  rw [simplify_build] at h
  obtain ⟨simple, hsimple, hs⟩ := j.mem_of_mem_subterms_join hatom h
  obtain ⟨term, hterm, rfl⟩ := List.mem_map.mp hsimple
  rw [subterms_build]
  exact List.mem_cons_of_mem _ (List.mem_flatMap.mpr ⟨term, hterm, ih term hterm s hatom hs⟩)

end Junction

namespace Term

theorem mem_of_mem_subterms_negate {term s : Term} (hatom : s.isAtom = true)
    (h : s ∈ term.negate.subterms) : s ∈ term.subterms := by
  cases term with
  | const value => exact absurd h (notMem_subterms_const hatom _)
  | not inner => exact List.mem_cons_of_mem _ h
  | _ =>
      rcases List.mem_cons.mp h with rfl | h
      · cases hatom
      · exact h

theorem mem_of_mem_subterms_implication {antecedent consequent s : Term}
    (hatom : s.isAtom = true) (h : s ∈ (implication antecedent consequent).subterms) :
    s ∈ antecedent.subterms ∨ s ∈ consequent.subterms := by
  unfold implication at h
  split at h
  · exact absurd h (notMem_subterms_const hatom true)
  · exact .inr h
  · exact absurd h (notMem_subterms_const hatom true)
  · exact .inl (mem_of_mem_subterms_negate hatom h)
  · rcases List.mem_cons.mp h with rfl | h
    · cases hatom
    · exact List.mem_append.mp h

-- Simplification drops and rearranges, but makes no atom of its own.
theorem mem_subterms_of_simplify (term : Term) :
    ∀ s, s.isAtom = true → s ∈ term.simplify.subterms → s ∈ term.subterms := by
  induction term with
  | and terms ih => exact fun s => Junction.all.mem_subterms_build_of_join ih
  | or terms ih => exact fun s => Junction.any.mem_subterms_build_of_join ih
  | not term ih =>
      intro s hatom h
      exact List.mem_cons_of_mem _ (ih s hatom (mem_of_mem_subterms_negate hatom h))
  | implies antecedent consequent ihantecedent ihconsequent =>
      intro s hatom h
      refine List.mem_cons_of_mem _ (List.mem_append.mpr ?_)
      exact (mem_of_mem_subterms_implication hatom h).imp (ihantecedent s hatom)
        (ihconsequent s hatom)
  | same first second =>
      intro s hatom h
      rw [simplify] at h
      split at h
      · exact absurd h (notMem_subterms_const hatom true)
      · exact h
  | _ => exact fun s _ h => h

-- Simplifying changes the value of a term under no positions of the slots and no presence of the
-- potential slots, and no symbol comes up that the term did not have.
theorem simplify_equivalent (term : Term) :
    (∀ position present, eval position present term.simplify = eval position present term) ∧
      term.simplify.atoms ⊆ term.atoms := by
  refine ⟨fun position present => eval_simplify position present term, fun s hs => ?_⟩
  obtain ⟨hmem, hatom⟩ := List.mem_filter.mp hs
  exact List.mem_filter.mpr ⟨mem_subterms_of_simplify term s hatom hmem, hatom⟩

end Term

end Qualify
