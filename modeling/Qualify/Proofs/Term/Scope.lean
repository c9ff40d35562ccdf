import Qualify.Proofs.Cnf.Encoding
import Qualify.Proofs.Term.Folding
import Qualify.Proofs.Term.Subterms

namespace Qualify

theorem Junction.mem_subterms_build (j : Junction) {terms : List Term} {s : Term} :
    s ∈ (j.build terms).subterms ↔ s = j.build terms ∨ ∃ term ∈ terms, s ∈ term.subterms := by
  rw [subterms_build, List.mem_cons, List.mem_flatMap]

def Operand.IsAmong (slots : List SlotId) : Operand → Prop
  | .constant _ => True
  | .slot id => id ∈ slots

theorem Registry.WellFormed.operand_isAmong {registry : Registry} (hwf : registry.WellFormed)
    {id : SlotId} {operand : Operand} (h : registry.operand id = .ok operand) :
    operand.IsAmong registry.variableSlots := by
  rcases hwf.operand_cases h with ⟨q, rfl, -⟩ | ⟨rfl, hid, -⟩
  · trivial
  · exact hid

namespace Term

-- A term that speaks of the qualifiers of some slots and of the presence of others. Ranges are not
-- among the terms of constraints.
inductive Over (slots potentials : List SlotId) : Term → Prop
  | const (value : Bool) : Over slots potentials (.const value)
  | and {terms : List Term} (h : ∀ term ∈ terms, Over slots potentials term) :
      Over slots potentials (.and terms)
  | or {terms : List Term} (h : ∀ term ∈ terms, Over slots potentials term) :
      Over slots potentials (.or terms)
  | not {term : Term} (h : Over slots potentials term) : Over slots potentials (.not term)
  | implies {antecedent consequent : Term} (hantecedent : Over slots potentials antecedent)
      (hconsequent : Over slots potentials consequent) :
      Over slots potentials (.implies antecedent consequent)
  | present {potential : SlotId} (h : potential ∈ potentials) :
      Over slots potentials (.exists potential)
  | is {id : SlotId} (h : id ∈ slots) (q : Qualifier) : Over slots potentials (.is id q)
  | same {first second : SlotId} (hfirst : first ∈ slots) (hsecond : second ∈ slots) :
      Over slots potentials (.same first second)

section Over

variable {slots potentials : List SlotId}

theorem Over.mono {others : List SlotId} (hsub : potentials ⊆ others) {term : Term}
    (h : Over slots potentials term) : Over slots others term := by
  induction h with
  | const value => exact .const value
  | and _ ih => exact .and ih
  | or _ ih => exact .or ih
  | not _ ih => exact .not ih
  | implies _ _ ihantecedent ihconsequent => exact .implies ihantecedent ihconsequent
  | present hp => exact .present (hsub hp)
  | is hid q => exact .is hid q
  | same hfirst hsecond => exact .same hfirst hsecond

theorem mem_subterms_not {term s : Term} :
    s ∈ (Term.not term).subterms ↔ s = .not term ∨ s ∈ term.subterms := by
  rw [subterms, List.mem_cons]

theorem mem_subterms_implies {antecedent consequent s : Term} :
    s ∈ (Term.implies antecedent consequent).subterms ↔
      s = .implies antecedent consequent ∨ s ∈ antecedent.subterms ∨ s ∈ consequent.subterms := by
  rw [subterms, List.mem_cons, List.mem_append]

theorem Over.of_mem_subterms {term : Term} (h : Over slots potentials term) {s : Term}
    (hs : s ∈ term.subterms) : Over slots potentials s := by
  induction h with
  | const value => exact List.mem_singleton.mp hs ▸ .const value
  | and h ih =>
      rcases Junction.all.mem_subterms_build.mp hs with rfl | ⟨term, hterm, hs⟩
      · exact .and h
      · exact ih term hterm hs
  | or h ih =>
      rcases Junction.any.mem_subterms_build.mp hs with rfl | ⟨term, hterm, hs⟩
      · exact .or h
      · exact ih term hterm hs
  | not h ih =>
      rcases mem_subterms_not.mp hs with rfl | hs
      · exact .not h
      · exact ih hs
  | implies hantecedent hconsequent ihantecedent ihconsequent =>
      rcases mem_subterms_implies.mp hs with rfl | hs | hs
      · exact .implies hantecedent hconsequent
      · exact ihantecedent hs
      · exact ihconsequent hs
  | present h => exact List.mem_singleton.mp hs ▸ .present h
  | is h q => exact List.mem_singleton.mp hs ▸ .is h q
  | same hfirst hsecond => exact List.mem_singleton.mp hs ▸ .same hfirst hsecond

-- By induction on the term; it is the atoms that name slots.
theorem over_of_atoms {term : Term}
    (h : ∀ s ∈ term.subterms, s.isAtom = true → Over slots potentials s) :
    Over slots potentials term := by
  induction term with
  | const value => exact .const value
  | and terms ih =>
      refine .and fun term hterm => ih term hterm fun s hs => h s ?_
      exact Junction.all.mem_subterms_build.mpr (.inr ⟨term, hterm, hs⟩)
  | or terms ih =>
      refine .or fun term hterm => ih term hterm fun s hs => h s ?_
      exact Junction.any.mem_subterms_build.mpr (.inr ⟨term, hterm, hs⟩)
  | not term ih => exact .not (ih fun s hs => h s (mem_subterms_not.mpr (.inr hs)))
  | implies antecedent consequent ihantecedent ihconsequent =>
      exact .implies (ihantecedent fun s hs => h s (mem_subterms_implies.mpr (.inr (.inl hs))))
        (ihconsequent fun s hs => h s (mem_subterms_implies.mpr (.inr (.inr hs))))
  | _ => exact h _ (List.mem_singleton_self _) rfl

-- Simplifying brings up no new symbols.
theorem Over.simplify {term : Term} (h : Over slots potentials term) :
    Over slots potentials term.simplify :=
  over_of_atoms fun s hs hatom => h.of_mem_subterms (mem_subterms_of_simplify term s hatom hs)

end Over

section Encoding

variable {slots potentials : List SlotId} (lattice : Lattice)

theorem over_oneOf {id : SlotId} (hid : id ∈ slots) (allowed : Qualifier → Bool) :
    Over slots potentials (oneOf lattice id allowed) :=
  .or (List.forall_mem_map.mpr fun q _ => .is hid q)

-- One implication for each qualifier.
theorem over_forEach {antecedent consequent : Qualifier → Term}
    (hantecedent : ∀ q, Over slots potentials (antecedent q))
    (hconsequent : ∀ q, Over slots potentials (consequent q)) :
    Over slots potentials
      (.and (lattice.qualifiers.map fun q => .implies (antecedent q) (consequent q))) :=
  .and (List.forall_mem_map.mpr fun q _ => .implies (hantecedent q) (hconsequent q))

theorem over_variableConstant (kind : Relation) {id : SlotId} (hid : id ∈ slots) (q : Qualifier) :
    Over slots potentials (variableConstant lattice kind id q) := by
  cases kind with
  | comparable => exact over_oneOf lattice hid _
  | equality => exact .is hid q
  | inequality => exact .not (.is hid q)
  | subtype => exact over_oneOf lattice hid _

theorem over_constantVariable (kind : Relation) {id : SlotId} (hid : id ∈ slots) (q : Qualifier) :
    Over slots potentials (constantVariable lattice kind q id) := by
  cases kind with
  | comparable => exact over_variableConstant lattice .comparable hid q
  | equality => exact over_variableConstant lattice .equality hid q
  | inequality => exact over_variableConstant lattice .inequality hid q
  | subtype => exact over_oneOf lattice hid _

theorem over_variableVariable (kind : Relation) {first second : SlotId} (hfirst : first ∈ slots)
    (hsecond : second ∈ slots) :
    Over slots potentials (variableVariable lattice kind first second) := by
  have hrelated : ∀ allowed, Over slots potentials (related lattice first second allowed) :=
    fun allowed => over_forEach lattice (fun q => .is hfirst q)
      fun q => over_oneOf lattice hsecond (allowed q)
  cases kind with
  | comparable => exact hrelated _
  | equality => exact .same hfirst hsecond
  | inequality => exact .not (.same hfirst hsecond)
  | subtype => exact hrelated _

theorem over_ofRelation {registry : Registry} (hwf : registry.WellFormed) {kind : Relation}
    {first second : SlotId} {location : Location} {route : RelationRoute}
    (h : registry.relationRoute kind first second location = .ok route) :
    Over registry.variableSlots potentials (ofRelation registry.lattice kind route) := by
  obtain ⟨a, b, ha, hb, hroute⟩ := Registry.relationRoute_cases h
  have hfirst := hwf.operand_isAmong ha
  have hsecond := hwf.operand_isAmong hb
  rcases hroute with ⟨q, id, rfl, rfl, rfl⟩ | ⟨id, q, rfl, rfl, rfl⟩ | ⟨v, w, rfl, rfl, rfl⟩
  · exact over_constantVariable registry.lattice kind hsecond q
  · exact over_variableConstant registry.lattice kind hfirst q
  · exact over_variableVariable registry.lattice kind hfirst hsecond

-- Every slot of the term is the result or one of the operands.
theorem over_ofFunction (table : TableFunction) {result : SlotId} (hresult : result ∈ slots)
    {left right : Operand} (hleft : left.IsAmong slots) (hright : right.IsAmong slots) :
    Over slots potentials (ofFunction lattice table result (left, right)) := by
  have his : ∀ q, Over slots potentials (is result q) := fun q => .is hresult q
  cases left with
  | constant a =>
      cases right with
      | constant b => exact his _
      | slot right => exact over_forEach lattice (fun b => .is hright b) fun b => his _
  | slot left =>
      cases right with
      | constant b => exact over_forEach lattice (fun a => .is hleft a) fun a => his _
      | slot right =>
          refine .and (List.forall_mem_flatMap.mpr fun a _ => List.forall_mem_map.mpr fun b _ => ?_)
          refine .implies (.and ?_) (his _)
          exact List.forall_mem_cons.mpr ⟨.is hleft a, List.forall_mem_singleton.mpr (.is hright b)⟩

end Encoding

end Term

namespace Constraint

def potentials (c : Constraint) : List SlotId :=
  c.visits.filterMap Visit.potential?

theorem mem_potentials {c : Constraint} {p : SlotId} :
    p ∈ c.potentials ↔ Visit.potential p ∈ c.visits := by
  have hsingle : c.potentials = potentialsOfAll [c] := by
    rw [potentialsOfAll_cons, potentials]
    exact (List.append_nil _).symm
  rw [hsingle, mem_potentialsOfAll]
  simp

theorem potentials_subset {constraints : List Constraint} {c : Constraint} (h : c ∈ constraints) :
    c.potentials ⊆ potentialsOfAll constraints :=
  fun _ hp => mem_potentialsOfAll.mpr ⟨c, h, mem_potentials.mp hp⟩

theorem potentials_existential (potential : SlotId) (present absent : List Constraint)
    (location : Location) :
    (existential potential present absent location).potentials =
      potential :: (potentialsOfAll present ++ potentialsOfAll absent) := by
  simp [potentials, visits, potentialsOfAll, Visit.potential?]

theorem potentials_implication (assumptions : List Constraint) (conclusion : Constraint)
    (location : Location) :
    (implication assumptions conclusion location).potentials =
      potentialsOfAll assumptions ++ conclusion.potentials := by
  simp [potentials, visits, potentialsOfAll]

section Scope

variable {registry : Registry}

theorem over_termsOfAll {parts : List Constraint} {terms : List Term}
    (h : ∀ part ∈ parts, ∀ t, part.term registry = .ok t →
      t.Over registry.variableSlots part.potentials)
    (hterms : termsOfAll registry parts = .ok terms) {potentials : List SlotId}
    (hsub : potentialsOfAll parts ⊆ potentials) :
    (Term.and terms).Over registry.variableSlots potentials := by
  refine .and fun t ht => ?_
  obtain ⟨part, hpart, hterm⟩ := (mem_termsOfAll hterms).1 t ht
  exact (h part hpart t hterm).mono (List.Subset.trans (potentials_subset hpart) hsub)

-- The term of a constraint speaks of variables, and of the presence of its potential slots.
theorem over_term (hwf : registry.WellFormed) (c : Constraint) {t : Term}
    (h : c.term registry = .ok t) : t.Over registry.variableSlots c.potentials := by
  induction c generalizing t with
  | alwaysTrue =>
      cases h
      exact .const true
  | alwaysFalse =>
      cases h
      exact .const false
  | relation kind first second location =>
      rw [term] at h
      obtain ⟨route, hroute, rfl⟩ := Except.bind_return_eq_ok.mp h
      exact Term.over_ofRelation hwf hroute
  | function table left right result location =>
      rw [term] at h
      obtain ⟨operands, hoperands, rfl⟩ := Except.bind_return_eq_ok.mp h
      obtain ⟨id, hresult, hleft, hright⟩ := Registry.functionRoute_cases hoperands
      have hid : id ∈ registry.variableSlots := hwf.operand_isAmong hresult
      rw [(hwf.slot_operand hresult).1] at hid
      exact Term.over_ofFunction registry.lattice table hid (hwf.operand_isAmong hleft)
        (hwf.operand_isAmong hright)
  | preference subject goal q weight location => cases h
  | existential potential present absent location ihpresent ihabsent =>
      rw [term] at h
      obtain ⟨ps, as, hps, has, rfl⟩ := Except.bind₂_return_eq_ok.mp h
      rw [potentials_existential]
      have hpotential : (Term.exists potential).Over registry.variableSlots
          (potential :: (potentialsOfAll present ++ potentialsOfAll absent)) :=
        .present List.mem_cons_self
      have hpresent := over_termsOfAll (fun c hc _ => ihpresent c hc) hps
        (List.subset_cons_of_subset potential (List.subset_append_left _ (potentialsOfAll absent)))
      have habsent := over_termsOfAll (fun c hc _ => ihabsent c hc) has
        (List.subset_cons_of_subset potential (List.subset_append_right (potentialsOfAll present) _))
      exact .and (List.forall_mem_cons.mpr ⟨.implies hpotential hpresent,
        List.forall_mem_singleton.mpr (.implies (.not hpotential) habsent)⟩)
  | implication assumptions conclusion location ihassumptions ihconclusion =>
      rw [term] at h
      obtain ⟨as, t, has, ht, rfl⟩ := Except.bind₂_return_eq_ok.mp h
      rw [potentials_implication]
      exact .implies
        (over_termsOfAll (fun c hc _ => ihassumptions c hc) has (List.subset_append_left _ _))
        ((ihconclusion ht).mono (List.subset_append_right _ _))

theorem filter_potentials {parts : List Constraint}
    (h : ∀ part ∈ parts, ∀ p ∈ part.potentials, p ∈ registry.variableSlots)
    (keep : Constraint → Bool) :
    ∀ p ∈ potentialsOfAll (parts.filter keep), p ∈ registry.variableSlots := by
  intro p hp
  obtain ⟨part, hpart, hp⟩ := mem_potentialsOfAll.mp hp
  exact h part (List.mem_filter.mp hpart).1 p (mem_potentials.mpr hp)

-- Only a variable can be a potential slot.
theorem Built.potentials_variable (hwf : registry.WellFormed) {c : Constraint}
    (h : Built registry c) : ∀ p ∈ c.potentials, p ∈ registry.variableSlots := by
  have hofBool : ∀ value, ∀ p ∈ (ofBool value).potentials, p ∈ registry.variableSlots := by
    intro value p hp
    cases value <;> cases hp
  induction h with
  | alwaysTrue => exact hofBool true
  | alwaysFalse => exact hofBool false
  | relate hearlier h =>
      rcases relate_cases h with ⟨value, rfl⟩ | ⟨rfl, -⟩
      · exact hofBool value
      · exact fun p hp => nomatch hp
  | compute hearlier h =>
      rcases compute_cases h with ⟨value, rfl⟩ | ⟨rfl, -⟩
      · exact hofBool value
      · exact fun p hp => nomatch hp
  | computeAtResult hearlier h =>
      obtain ⟨slot, -, h⟩ := Except.bind_eq_ok.mp h
      rcases compute_cases h with ⟨value, rfl⟩ | ⟨rfl, -⟩
      · exact hofBool value
      · exact fun p hp => nomatch hp
  | prefer hearlier h =>
      obtain ⟨slot, constant, q, rfl, -⟩ := prefer_cases h
      exact fun p hp => nomatch hp
  | @branch earlier hearlier potential present absent c hpresent habsent h ihpresent ihabsent =>
      obtain ⟨slot, hslot, -⟩ := Except.bind_eq_ok.mp h
      obtain ⟨hget, hvariable⟩ := variableOf_eq_ok.mp hslot
      have hpotential : potential ∈ registry.variableSlots :=
        (hwf.mem_variableSlots (hearlier.grows.get?_eq _ slot hget)).mpr hvariable
      obtain ⟨-, rfl | ⟨slot, rfl⟩⟩ := branch_cases h
      · exact hofBool true
      · rw [potentials_existential, List.forall_mem_cons, List.forall_mem_append]
        exact ⟨hpotential, filter_potentials ihpresent _, filter_potentials ihabsent _⟩
  | imply hassumptions hconclusion h ihassumptions ihconclusion =>
      obtain ⟨-, rfl | rfl | rfl⟩ := imply_cases h
      · exact hofBool true
      · exact ihconclusion
      · rw [potentials_implication, List.forall_mem_append]
        exact ⟨filter_potentials ihassumptions _, ihconclusion⟩

end Scope

end Constraint

end Qualify
