import Qualify.Proofs.Constraint.Normalization
import Qualify.Proofs.Term.Simplify
import Qualify.Term.OfConstraint

namespace Qualify

namespace Term

-- A term without constants, in which no conjunction or disjunction is empty.
inductive ConstFree : Term → Prop
  | and {terms : List Term} (hne : terms ≠ []) (h : ∀ term ∈ terms, ConstFree term) :
      ConstFree (.and terms)
  | or {terms : List Term} (hne : terms ≠ []) (h : ∀ term ∈ terms, ConstFree term) :
      ConstFree (.or terms)
  | not {term : Term} (h : ConstFree term) : ConstFree (.not term)
  | implies {antecedent consequent : Term} (hantecedent : ConstFree antecedent)
      (hconsequent : ConstFree consequent) : ConstFree (.implies antecedent consequent)
  | exists (potential : SlotId) : ConstFree (.exists potential)
  | is (id : SlotId) (q : Qualifier) : ConstFree (.is id q)
  | same (first second : SlotId) : ConstFree (.same first second)
  | range (id : SlotId) (bound : Nat) : ConstFree (.range id bound)

namespace ConstFree

theorem ne_const {term : Term} (h : ConstFree term) (value : Bool) : term ≠ .const value := by
  rintro rfl
  cases h

theorem negate {term : Term} (h : ConstFree term) : ConstFree term.negate := by
  cases term with
  | const value => cases h
  | not term =>
      cases h with
      | not h => exact h
  | _ => exact .not h

theorem implication {antecedent consequent : Term} (hantecedent : ConstFree antecedent)
    (hconsequent : consequent = .const false ∨ ConstFree consequent) :
    ConstFree (Term.implication antecedent consequent) := by
  unfold Term.implication
  split
  · cases hantecedent
  · cases hantecedent
  · rcases hconsequent with hfalse | hconsequent
    · cases hfalse
    · cases hconsequent
  · exact hantecedent.negate
  · rename_i hne
    exact .implies hantecedent (hconsequent.resolve_left hne)

theorem implication_true {antecedent : Term} (h : ConstFree antecedent) :
    Term.implication antecedent (.const true) = .const true := by
  cases h <;> rfl

end ConstFree

end Term

namespace Junction

open Term

variable (j : Junction)

theorem join_of_mem_absorbing {terms : List Term} (h : Term.const j.absorbing ∈ terms) :
    j.join terms = .const j.absorbing := by
  rcases j.join_cases terms with ⟨-, heq⟩ | ⟨hnot, -⟩
  · exact heq
  · exact absurd h hnot

theorem constFree_build_iff {terms : List Term} :
    (j.build terms).ConstFree ↔ terms ≠ [] ∧ ∀ term ∈ terms, term.ConstFree := by
  constructor
  · intro h
    cases j with
    | all =>
        cases h with
        | and hne h => exact ⟨hne, h⟩
    | any =>
        cases h with
        | or hne h => exact ⟨hne, h⟩
  · intro h
    cases j with
    | all => exact .and h.1 h.2
    | any => exact .or h.1 h.2

theorem constFree_members {term : Term} (h : term.ConstFree) :
    j.members term ≠ [] ∧ ∀ part ∈ j.members term, part.ConstFree := by
  rcases j.members_cases term with ⟨rfl, -⟩ | ⟨terms, rfl, heq⟩ | ⟨-, -, heq⟩
  · cases h
  · rw [heq]
    exact j.constFree_build_iff.mp h
  · rw [heq]
    exact ⟨List.cons_ne_nil _ _, List.forall_mem_singleton.mpr h⟩

-- Of the members that are not constants, all are kept.
theorem constFree_join {terms : List Term}
    (h : ∀ term ∈ terms, term = .const !j.absorbing ∨ term.ConstFree)
    (hsome : ∃ term ∈ terms, term.ConstFree) : (j.join terms).ConstFree := by
  have hflat : ∀ part ∈ terms.flatMap j.members, part.ConstFree := by
    refine List.forall_mem_flatMap.mpr fun term hterm part hpart => ?_
    rcases h term hterm with rfl | hfree
    · rcases j.members_cases (.const !j.absorbing) with ⟨-, heq⟩ | ⟨_, heq, -⟩ | ⟨hne, -⟩
      · rw [heq] at hpart
        cases hpart
      · cases j <;> cases heq
      · exact absurd rfl hne
    · exact (j.constFree_members hfree).2 part hpart
  have hne : terms.flatMap j.members ≠ [] := by
    obtain ⟨term, hterm, hfree⟩ := hsome
    intro hnil
    exact (j.constFree_members hfree).1 (List.flatMap_eq_nil_iff.mp hnil term hterm)
  rcases j.join_cases terms with ⟨hmem, -⟩ | ⟨-, ⟨hnil, -⟩ | ⟨term, hone, heq⟩ | ⟨-, heq⟩⟩
  · rcases h _ hmem with hneutral | hfree
    · cases hvalue : j.absorbing <;> rw [hvalue] at hneutral <;> cases hneutral
    · cases hfree
  · exact absurd hnil hne
  · rw [heq]
    exact hflat term (hone ▸ List.mem_singleton_self term)
  · rw [heq]
    exact j.constFree_build_iff.mpr ⟨hne, hflat⟩

end Junction

namespace Term

theorem constFree_simplify_and {terms : List Term} (hne : terms ≠ [])
    (h : ∀ term ∈ terms, ConstFree term.simplify) : ConstFree (Term.and terms).simplify := by
  rw [simplify, simplifyAll_eq]
  obtain ⟨term, hterm⟩ := List.exists_mem_of_ne_nil terms hne
  exact Junction.all.constFree_join (List.forall_mem_map.mpr fun term hterm => .inr (h term hterm))
    ⟨_, List.mem_map_of_mem hterm, h term hterm⟩

section Leaves

variable {lattice : Lattice} (hpos : 0 < lattice.size)

theorem constFree_oneOf {id : SlotId} {allowed : Qualifier → Bool}
    (h : ∃ q < lattice.size, allowed q = true) :
    ConstFree (oneOf lattice id allowed).simplify := by
  obtain ⟨q, hq, hallowed⟩ := h
  rw [oneOf, simplify, simplifyAll_eq, List.map_map]
  have hmem := List.mem_filter.mpr ⟨List.mem_range.mpr hq, hallowed⟩
  exact Junction.any.constFree_join (List.forall_mem_map.mpr fun p _ => .inr (.is id p))
    ⟨_, List.mem_map_of_mem hmem, .is id q⟩

theorem constFree_implies {antecedent consequent : Term} (hantecedent : ConstFree antecedent.simplify)
    (hconsequent : ConstFree consequent.simplify) :
    ConstFree (Term.implies antecedent consequent).simplify := by
  rw [simplify]
  exact hantecedent.implication (.inr hconsequent)

include hpos in
theorem constFree_related {first second : SlotId} {allowed : Qualifier → Qualifier → Bool}
    (h : ∀ p < lattice.size, ∃ q < lattice.size, allowed p q = true) :
    ConstFree (related lattice first second allowed).simplify := by
  refine constFree_simplify_and ?_ (List.forall_mem_map.mpr fun p hp => ?_)
  · exact List.ne_nil_of_mem (List.mem_map_of_mem (List.mem_range.mpr hpos))
  · exact constFree_implies (.is first p) (constFree_oneOf (h p (List.mem_range.mp hp)))

end Leaves

section Constraints

variable {lattice : Lattice} (h : lattice.Ordered)
include h

theorem constFree_variableConstant (kind : Relation) (id : SlotId) {q : Qualifier}
    (hq : q < lattice.size) : ConstFree (variableConstant lattice kind id q).simplify := by
  cases kind with
  | comparable => exact constFree_oneOf ⟨q, hq, Relation.holds_self h hq .comparable⟩
  | equality => exact .is id q
  | inequality => exact .not (.is id q)
  | subtype => exact constFree_oneOf ⟨q, hq, h.refl q hq⟩

theorem constFree_constantVariable (kind : Relation) (id : SlotId) {q : Qualifier}
    (hq : q < lattice.size) : ConstFree (constantVariable lattice kind q id).simplify := by
  unfold constantVariable
  split
  · exact constFree_oneOf ⟨q, hq, h.refl q hq⟩
  · exact constFree_variableConstant h kind id hq

theorem constFree_variableVariable (kind : Relation) {first second : SlotId}
    (hne : first ≠ second) :
    ConstFree (variableVariable lattice kind first second).simplify := by
  have hsame : (Term.same first second).simplify = .same first second := by
    rw [simplify, if_neg hne]
  cases kind with
  | comparable =>
      exact constFree_related h.size_pos fun p hp => ⟨p, hp, Relation.holds_self h hp .comparable⟩
  | equality =>
      rw [variableVariable, hsame]
      exact .same first second
  | inequality =>
      rw [variableVariable, simplify, hsame]
      exact .not (.same first second)
  | subtype => exact constFree_related h.size_pos fun p hp => ⟨p, hp, h.refl p hp⟩

end Constraints

-- The lattice is not empty, so that none of the conjunctions is.
theorem constFree_ofFunction {lattice : Lattice} (hpos : 0 < lattice.size) (table : TableFunction)
    (result : SlotId) (operands : Operand × Operand) :
    ConstFree (ofFunction lattice table result operands).simplify := by
  have hqualifiers : lattice.qualifiers ≠ [] := List.ne_nil_of_mem (List.mem_range.mpr hpos)
  obtain ⟨left, right⟩ := operands
  cases left with
  | constant a =>
      cases right with
      | constant b => exact .is result _
      | slot right =>
          exact constFree_simplify_and (by simpa using hqualifiers)
            (List.forall_mem_map.mpr fun b _ => constFree_implies (.is right b) (.is result _))
  | slot left =>
      cases right with
      | constant b =>
          exact constFree_simplify_and (by simpa using hqualifiers)
            (List.forall_mem_map.mpr fun a _ => constFree_implies (.is left a) (.is result _))
      | slot right =>
          refine constFree_simplify_and ?_ (List.forall_mem_flatMap.mpr fun a _ =>
            List.forall_mem_map.mpr fun b _ => constFree_implies ?_ (.is result _))
          · obtain ⟨q, hq⟩ := List.exists_mem_of_ne_nil _ hqualifiers
            exact List.ne_nil_of_mem (List.mem_flatMap.mpr ⟨q, hq, List.mem_map_of_mem hq⟩)
          · exact constFree_simplify_and (List.cons_ne_nil _ _) (List.forall_mem_cons.mpr
              ⟨.is left a, List.forall_mem_singleton.mpr (.is right b)⟩)

end Term

namespace Constraint

variable {registry : Registry}

theorem constFree_relation (hreachable : registry.Reachable) {kind : Relation}
    {first second : SlotId} {location : Location} (hne : first ≠ second) {t : Term}
    (ht : term registry (.relation kind first second location) = .ok t) :
    t.simplify.ConstFree := by
  have hordered := hreachable.ordered
  have hwf := hreachable.wellFormed
  rw [term] at ht
  obtain ⟨route, hroute, rfl⟩ := Except.bind_return_eq_ok.mp ht
  obtain ⟨a, b, ha, hb, hcases⟩ := Registry.relationRoute_cases hroute
  rcases hcases with ⟨q, id, rfl, rfl, rfl⟩ | ⟨id, q, rfl, rfl, rfl⟩ | ⟨v, w, rfl, rfl, rfl⟩
  · exact Term.constFree_constantVariable hordered kind id (hwf.constant_operand_lt ha)
  · exact Term.constFree_variableConstant hordered kind id (hwf.constant_operand_lt hb)
  · rw [(hwf.slot_operand ha).1, (hwf.slot_operand hb).1]
    exact Term.constFree_variableVariable hordered kind hne

theorem constFree_function (hreachable : registry.Reachable) {table : TableFunction}
    {left right result : SlotId} {location : Location} {t : Term}
    (ht : term registry (.function table left right result location) = .ok t) :
    t.simplify.ConstFree := by
  rw [term] at ht
  obtain ⟨operands, -, rfl⟩ := Except.bind_return_eq_ok.mp ht
  exact Term.constFree_ofFunction hreachable.ordered.size_pos table result operands

-- The terms and the parts correspond one to one, in order.
theorem mem_termsOfAll {parts : List Constraint} {terms : List Term}
    (h : termsOfAll registry parts = .ok terms) :
    (∀ t ∈ terms, ∃ part ∈ parts, part.term registry = .ok t) ∧
      ∀ part ∈ parts, ∃ t ∈ terms, part.term registry = .ok t := by
  induction parts generalizing terms with
  | nil =>
      cases h
      simp
  | cons c rest ih =>
      rw [termsOfAll] at h
      obtain ⟨t, others, ht, hothers, rfl⟩ := Except.bind₂_return_eq_ok.mp h
      obtain ⟨hterms, hparts⟩ := ih hothers
      refine ⟨List.forall_mem_cons.mpr ⟨⟨c, List.mem_cons_self, ht⟩, fun other hother => ?_⟩,
        List.forall_mem_cons.mpr ⟨⟨t, List.mem_cons_self, ht⟩, fun part hpart => ?_⟩⟩
      · obtain ⟨part, hpart, hterm⟩ := hterms other hother
        exact ⟨part, List.mem_cons_of_mem c hpart, hterm⟩
      · obtain ⟨other, hother, hterm⟩ := hparts part hpart
        exact ⟨other, List.mem_cons_of_mem t hother, hterm⟩

-- The parts of a constraint, without those that hold anyway: each of them is false by its form or
-- left open by its term.
def Needed (registry : Registry) (part : Constraint) : Prop :=
  ∀ t, part.term registry = .ok t →
    (part.isAlwaysFalse = true ∧ t.simplify = .const false) ∨
      (part.isAlwaysFalse = false ∧ t.simplify.ConstFree)

section Parts

variable {parts : List Constraint} {terms : List Term}
  (h : ∀ part ∈ parts, Needed registry part) (hterms : termsOfAll registry parts = .ok terms)
include h hterms

theorem simplify_assumptions (hne : parts ≠ [])
    (hfalse : ∀ part ∈ parts, part.isAlwaysFalse = false) :
    (Term.and terms).simplify.ConstFree := by
  obtain ⟨hmem, hall⟩ := mem_termsOfAll hterms
  refine Term.constFree_simplify_and ?_ fun t ht => ?_
  · obtain ⟨part, hpart⟩ := List.exists_mem_of_ne_nil parts hne
    obtain ⟨t, ht, -⟩ := hall part hpart
    exact List.ne_nil_of_mem ht
  · obtain ⟨part, hpart, hterm⟩ := hmem t ht
    rcases h part hpart t hterm with ⟨hpartFalse, -⟩ | ⟨-, hfree⟩
    · cases hpartFalse.symm.trans (hfalse part hpart)
    · exact hfree

-- A branch vanishes only if nothing is needed in it.
theorem simplify_branch {antecedent : Term} (hantecedent : antecedent.simplify.ConstFree) :
    (parts = [] ∧ (Term.implies antecedent (.and terms)).simplify = .const true) ∨
      (parts ≠ [] ∧ (Term.implies antecedent (.and terms)).simplify.ConstFree) := by
  by_cases hne : parts = []
  · subst hne
    cases hterms
    refine .inl ⟨rfl, ?_⟩
    rw [Term.simplify, Term.simplify]
    exact hantecedent.implication_true
  · refine .inr ⟨hne, ?_⟩
    rw [Term.simplify]
    refine hantecedent.implication ?_
    by_cases hfalse : ∀ part ∈ parts, part.isAlwaysFalse = false
    · exact .inr (simplify_assumptions h hterms hne hfalse)
    · simp only [not_forall] at hfalse
      obtain ⟨part, hpart, hpartFalse⟩ := hfalse
      obtain ⟨t, ht, hterm⟩ := (mem_termsOfAll hterms).2 part hpart
      rcases h part hpart t hterm with ⟨-, hconst⟩ | ⟨hopen, -⟩
      · refine .inl ?_
        rw [Term.simplify, Term.simplifyAll_eq]
        exact Junction.all.join_of_mem_absorbing (hconst ▸ List.mem_map_of_mem ht)
      · exact absurd hopen hpartFalse

end Parts

-- Whatever is not decided by its form has a term without constants.
def Undecided (registry : Registry) (c : Constraint) : Prop :=
  c.isSoft = false → c.isAlwaysTrue = false → c.isAlwaysFalse = false →
    ∀ t, c.term registry = .ok t → t.simplify.ConstFree

theorem Undecided.needed {part : Constraint} (h : Undecided registry part)
    (hsoft : part.isSoft = false) (htrue : part.isAlwaysTrue = false) :
    Needed registry part := by
  intro t ht
  cases hfalse : part.isAlwaysFalse with
  | true =>
      cases part with
      | alwaysFalse =>
          cases ht
          exact .inl ⟨rfl, rfl⟩
      | _ => cases hfalse
  | false => exact .inr ⟨rfl, h hsoft htrue hfalse t ht⟩

theorem needed_filter {parts : List Constraint} (hsoft : ∀ part ∈ parts, part.isSoft = false)
    (h : ∀ part ∈ parts, Undecided registry part) :
    ∀ part ∈ parts.filter fun c => !c.isAlwaysTrue, Needed registry part := by
  intro part hpart
  obtain ⟨hmem, htrue⟩ := List.mem_filter.mp hpart
  exact (h part hmem).needed (hsoft part hmem) (by simpa using htrue)

theorem undecided_ofBool (value : Bool) : Undecided registry (ofBool value) := by
  intro _ htrue hfalse
  cases value with
  | true => cases htrue
  | false => cases hfalse

theorem undecided_compute (hreachable : registry.Reachable) {earlier : Registry}
    {table : TableFunction} {left right result : SlotId} {location : Location} {c : Constraint}
    (h : compute earlier table left right result location = .ok c) : Undecided registry c := by
  rcases compute_cases h with ⟨value, rfl⟩ | ⟨rfl, -⟩
  · exact undecided_ofBool value
  · exact fun _ _ _ t ht => constFree_function hreachable ht

-- One branch with a part is enough: the conjunction then has a member that is free of constants.
theorem undecided_existential {potential : SlotId} {present absent : List Constraint}
    {location : Location} (hpresent : ∀ part ∈ present, Needed registry part)
    (habsent : ∀ part ∈ absent, Needed registry part) (hsome : ¬(present = [] ∧ absent = [])) :
    Undecided registry (.existential potential present absent location) := by
  intro _ _ _ t ht
  rw [term] at ht
  obtain ⟨ps, as, hps, has, rfl⟩ := Except.bind₂_return_eq_ok.mp ht
  have hexists : (Term.exists potential).simplify.ConstFree := .exists potential
  have hmissing : (Term.exists potential).not.simplify.ConstFree := .not hexists
  have hfirst := simplify_branch hpresent hps hexists
  have hsecond := simplify_branch habsent has hmissing
  rw [Term.simplify, Term.simplifyAll_eq]
  refine Junction.all.constFree_join ?_ ?_
  · refine List.forall_mem_cons.mpr ⟨?_, List.forall_mem_singleton.mpr ?_⟩
    · exact hfirst.imp (fun h => h.2) fun h => h.2
    · exact hsecond.imp (fun h => h.2) fun h => h.2
  · rcases hfirst with ⟨hempty, -⟩ | ⟨-, hfree⟩
    · rcases hsecond with ⟨hempty', -⟩ | ⟨-, hfree⟩
      · exact absurd ⟨hempty, hempty'⟩ hsome
      · exact ⟨_, List.mem_cons_of_mem _ List.mem_cons_self, hfree⟩
    · exact ⟨_, List.mem_cons_self, hfree⟩

theorem undecided_implication {assumptions : List Constraint} {conclusion : Constraint}
    {location : Location} (hassumptions : ∀ part ∈ assumptions, Needed registry part)
    (hne : assumptions ≠ []) (hfalse : ∀ part ∈ assumptions, part.isAlwaysFalse = false)
    (hconclusion : Needed registry conclusion) :
    Undecided registry (.implication assumptions conclusion location) := by
  intro _ _ _ t ht
  rw [term] at ht
  obtain ⟨as, consequent, has, hconsequent, rfl⟩ := Except.bind₂_return_eq_ok.mp ht
  rw [Term.simplify]
  refine (simplify_assumptions hassumptions has hne hfalse).implication ?_
  exact (hconclusion consequent hconsequent).imp (fun h => h.2) fun h => h.2

-- What is not decided when it is made is not decided by its term either.
theorem Built.undecided (hreachable : registry.Reachable) {c : Constraint}
    (h : Built registry c) : Undecided registry c := by
  induction h with
  | alwaysTrue => exact undecided_ofBool true
  | alwaysFalse => exact undecided_ofBool false
  | relate hearlier h =>
      obtain ⟨a, b, -, -, hsteps⟩ := relate_steps h
      rcases hsteps with ⟨p, q, -, -, rfl⟩ | ⟨-, rfl⟩ | ⟨-, rfl⟩ | ⟨-, hne, rfl⟩
      · exact undecided_ofBool _
      · exact undecided_ofBool _
      · exact undecided_ofBool true
      · exact fun _ _ _ t ht => constFree_relation hreachable hne ht
  | compute hearlier h => exact undecided_compute hreachable h
  | computeAtResult hearlier h =>
      obtain ⟨slot, -, h⟩ := Except.bind_eq_ok.mp h
      exact undecided_compute hreachable h
  | prefer hearlier h =>
      obtain ⟨slot, constant, q, rfl, -⟩ := prefer_cases h
      exact fun hsoft => nomatch hsoft
  | branch hearlier hpresent habsent h ihpresent ihabsent =>
      obtain ⟨hparts, hsteps⟩ := branch_steps h
      obtain ⟨hp, ha⟩ := List.forall_mem_append.mp hparts
      rcases hsteps with ⟨-, -, rfl⟩ | ⟨hsome, slot, rfl⟩
      · exact undecided_ofBool true
      · exact undecided_existential (needed_filter hp ihpresent) (needed_filter ha ihabsent) hsome
  | imply hassumptions hconclusion h ihassumptions ihconclusion =>
      obtain ⟨hparts, hsteps⟩ := imply_steps h
      obtain ⟨ha, hc⟩ := List.forall_mem_append.mp hparts
      rcases hsteps with ⟨rfl, -⟩ | ⟨-, rfl⟩ | ⟨-, rfl⟩ | ⟨hopen, hne, hneeded, rfl⟩
      · exact undecided_ofBool true
      · exact ihconclusion
      · exact undecided_ofBool true
      · exact undecided_implication (needed_filter ha ihassumptions) hne
          (fun part hpart => hopen part (List.mem_filter.mp hpart).1)
          (ihconclusion.needed (hc _ List.mem_cons_self) hneeded)

end Constraint

end Qualify
