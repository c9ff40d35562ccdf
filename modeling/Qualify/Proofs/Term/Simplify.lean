import Mathlib.Data.List.Basic
import Qualify.Term.Simplify

namespace Qualify

namespace Term

-- Induction over a term and all its parts.
@[elab_as_elim, induction_eliminator]
theorem induction {motive : Term → Prop} (const : ∀ value, motive (.const value))
    (and : ∀ terms, (∀ term ∈ terms, motive term) → motive (.and terms))
    (or : ∀ terms, (∀ term ∈ terms, motive term) → motive (.or terms))
    (not : ∀ term, motive term → motive (.not term))
    (implies : ∀ antecedent consequent, motive antecedent → motive consequent →
      motive (.implies antecedent consequent))
    (exists_ : ∀ potential, motive (.exists potential))
    (is : ∀ id q, motive (.is id q))
    (same : ∀ first second, motive (.same first second))
    (range : ∀ id bound, motive (.range id bound))
    (term : Term) : motive term := by
  refine @Term.rec motive (fun terms => ∀ term ∈ terms, motive term) const and or not implies
    exists_ is same range ?_ ?_ term
  · intro term hterm
    cases hterm
  · intro first rest hfirst hrest
    exact List.forall_mem_cons.mpr ⟨hfirst, hrest⟩

variable (position : SlotId → Int) (present : SlotId → Bool)

theorem evalAll_eq (terms : List Term) :
    evalAll position present terms = terms.all (eval position present) := by
  induction terms with
  | nil => rfl
  | cons term rest ih => exact congrArg (eval position present term && ·) ih

theorem evalAny_eq (terms : List Term) :
    evalAny position present terms = terms.any (eval position present) := by
  induction terms with
  | nil => rfl
  | cons term rest ih => exact congrArg (eval position present term || ·) ih

@[simp] theorem eval_const (value : Bool) : eval position present (.const value) = value := rfl

@[simp] theorem eval_and (terms : List Term) :
    eval position present (.and terms) = terms.all (eval position present) :=
  evalAll_eq position present terms

@[simp] theorem eval_or (terms : List Term) :
    eval position present (.or terms) = terms.any (eval position present) :=
  evalAny_eq position present terms

@[simp] theorem eval_not (term : Term) :
    eval position present (.not term) = !eval position present term := rfl

@[simp] theorem eval_implies (antecedent consequent : Term) :
    eval position present (.implies antecedent consequent) =
      (!eval position present antecedent || eval position present consequent) := rfl

@[simp] theorem eval_exists (potential : SlotId) :
    eval position present (.exists potential) = present potential := rfl

theorem simplifyAll_eq (terms : List Term) : simplifyAll terms = terms.map simplify := by
  induction terms with
  | nil => rfl
  | cons term rest ih => exact congrArg (simplify term :: ·) ih

theorem isConst_iff {value : Bool} {term : Term} :
    term.isConst value = true ↔ term = .const value := by
  cases term with
  | const b => simp [isConst]
  | _ => simp [isConst]

end Term

-- Conjunctions and disjunctions, whose rules are the same up to the constant that decides them.
inductive Junction where
  | all
  | any

namespace Junction

open Term

def build : Junction → List Term → Term
  | all => and
  | any => or

-- The constant that a single member makes of the whole.
def absorbing : Junction → Bool
  | all => false
  | any => true

def members : Junction → Term → List Term
  | all => conjuncts
  | any => disjuncts

def join : Junction → List Term → Term
  | all => conjunction
  | any => disjunction

variable (j : Junction)

theorem simplify_build (terms : List Term) :
    (j.build terms).simplify = j.join (terms.map simplify) := by
  cases j <;> exact congrArg _ (simplifyAll_eq terms)

def ofMembers : List Term → Term
  | [] => .const !j.absorbing
  | [term] => term
  | terms => j.build terms

theorem join_eq (terms : List Term) :
    j.join terms = if terms.any (isConst j.absorbing) then .const j.absorbing
      else j.ofMembers (terms.flatMap j.members) := by
  cases j <;> rfl

-- All that can come of some members.
theorem join_cases (terms : List Term) :
    (Term.const j.absorbing ∈ terms ∧ j.join terms = .const j.absorbing) ∨
      Term.const j.absorbing ∉ terms ∧
        ((terms.flatMap j.members = [] ∧ j.join terms = .const !j.absorbing) ∨
          (∃ term, terms.flatMap j.members = [term] ∧ j.join terms = term) ∨
          (2 ≤ (terms.flatMap j.members).length ∧
            j.join terms = j.build (terms.flatMap j.members))) := by
  have hany : terms.any (isConst j.absorbing) = true ↔ Term.const j.absorbing ∈ terms := by
    rw [List.any_eq_true]
    constructor
    · rintro ⟨term, hterm, hconst⟩
      exact isConst_iff.mp hconst ▸ hterm
    · exact fun hmem => ⟨_, hmem, isConst_iff.mpr rfl⟩
  rw [join_eq]
  split
  · rename_i habsorbed
    exact .inl ⟨hany.mp habsorbed, rfl⟩
  · rename_i hopen
    refine .inr ⟨fun hmem => hopen (hany.mpr hmem), ?_⟩
    rcases terms.flatMap j.members with _ | ⟨term, _ | ⟨other, rest⟩⟩
    · exact .inl ⟨rfl, rfl⟩
    · exact .inr (.inl ⟨term, rfl, rfl⟩)
    · exact .inr (.inr ⟨by simp, rfl⟩)

-- A neutral constant adds nothing, a term of the same kind its own members, any other term itself.
theorem members_cases (term : Term) :
    (term = .const !j.absorbing ∧ j.members term = []) ∨
      (∃ terms, term = j.build terms ∧ j.members term = terms) ∨
      (term ≠ .const !j.absorbing ∧ (∀ terms, term ≠ j.build terms) ∧ j.members term = [term]) := by
  cases j with
  | all =>
      cases term with
      | const value => cases value <;> simp [members, conjuncts, absorbing, build]
      | _ => simp [members, conjuncts, build]
  | any =>
      cases term with
      | const value => cases value <;> simp [members, disjuncts, absorbing, build]
      | _ => simp [members, disjuncts, build]

variable (position : SlotId → Int) (present : SlotId → Bool)

-- One member with the absorbing value decides the whole.
theorem eval_build_iff (terms : List Term) :
    eval position present (j.build terms) = j.absorbing ↔
      ∃ term ∈ terms, eval position present term = j.absorbing := by
  cases j with
  | all => simp [build, absorbing]
  | any => simp [build, absorbing]

theorem exists_members_iff (term : Term) :
    (∃ part ∈ j.members term, eval position present part = j.absorbing) ↔
      eval position present term = j.absorbing := by
  rcases j.members_cases term with ⟨rfl, heq⟩ | ⟨terms, rfl, heq⟩ | ⟨-, -, heq⟩ <;> rw [heq]
  · simp
  · rw [eval_build_iff]
  · simp

-- Flattening keeps which values occur, and after it the four outcomes of a join are read off.
theorem eval_join_iff (terms : List Term) :
    eval position present (j.join terms) = j.absorbing ↔
      ∃ term ∈ terms, eval position present term = j.absorbing := by
  have hflat : (∃ part ∈ terms.flatMap j.members, eval position present part = j.absorbing) ↔
      ∃ term ∈ terms, eval position present term = j.absorbing := by
    constructor
    · rintro ⟨part, hmem, hvalue⟩
      obtain ⟨term, hterm, hpart⟩ := List.mem_flatMap.mp hmem
      exact ⟨term, hterm, (j.exists_members_iff position present term).mp ⟨part, hpart, hvalue⟩⟩
    · rintro ⟨term, hterm, hvalue⟩
      obtain ⟨part, hpart, hvalue⟩ := (j.exists_members_iff position present term).mpr hvalue
      exact ⟨part, List.mem_flatMap.mpr ⟨term, hterm, hpart⟩, hvalue⟩
  rcases j.join_cases terms with ⟨hmem, heq⟩ | ⟨-, ⟨hnil, heq⟩ | ⟨term, hone, heq⟩ | ⟨-, heq⟩⟩ <;>
    rw [heq]
  · exact iff_of_true rfl ⟨_, hmem, rfl⟩
  · rw [← hflat, hnil]
    simp
  · rw [← hflat, hone]
    simp
  · rw [eval_build_iff, hflat]

theorem eval_simplify_build {terms : List Term}
    (ih : ∀ term ∈ terms, eval position present term.simplify = eval position present term) :
    eval position present (j.build terms).simplify = eval position present (j.build terms) := by
  have heq : ∀ a b c : Bool, (a = c ↔ b = c) → a = b := by decide
  refine heq _ _ j.absorbing ?_
  rw [simplify_build, eval_join_iff, eval_build_iff]
  constructor
  · rintro ⟨_, hmem, hvalue⟩
    obtain ⟨term, hterm, rfl⟩ := List.mem_map.mp hmem
    exact ⟨term, hterm, ih term hterm ▸ hvalue⟩
  · rintro ⟨term, hterm, hvalue⟩
    exact ⟨_, List.mem_map_of_mem hterm, (ih term hterm).trans hvalue⟩

end Junction

namespace Term

variable (position : SlotId → Int) (present : SlotId → Bool)

theorem eval_negate (term : Term) :
    eval position present (negate term) = !eval position present term := by
  cases term with
  | not term => simp [negate]
  | _ => simp [negate]

theorem eval_implication (antecedent consequent : Term) :
    eval position present (implication antecedent consequent) =
      (!eval position present antecedent || eval position present consequent) := by
  unfold implication
  split <;> simp [eval_negate]

-- A simpler term has the same value, whatever the positions are.
theorem eval_simplify (term : Term) :
    eval position present term.simplify = eval position present term := by
  induction term with
  | const value => rfl
  | and terms ih => exact Junction.all.eval_simplify_build position present ih
  | or terms ih => exact Junction.any.eval_simplify_build position present ih
  | not term ih => rw [simplify, eval_negate, eval_not, ih]
  | implies antecedent consequent ihantecedent ihconsequent =>
      rw [simplify, eval_implication, eval_implies, ihantecedent, ihconsequent]
  | exists_ potential => rfl
  | is id q => rfl
  | same first second =>
      rw [simplify]
      split
      · rename_i heq
        simp [heq, eval]
      · rfl
  | range id bound => rfl

end Term

end Qualify
