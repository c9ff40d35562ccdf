import Qualify.Proofs.Clause.Meaning
import Qualify.Proofs.Term.Simplify
import Qualify.Term.OfConstraint

namespace Qualify

namespace Term

section Leaves

variable {position : SlotId → Int} {present : SlotId → Bool} {lattice : Lattice}

theorem eval_is {id : SlotId} {a : Qualifier} (h : position id = a) (q : Qualifier) :
    eval position present (.is id q) = (a == q) := by
  rw [eval, h, Bool.eq_iff_iff, beq_iff_eq, beq_iff_eq]
  exact Int.natCast_inj

theorem eval_oneOf {id : SlotId} {a : Qualifier} (h : position id = a) (ha : a < lattice.size)
    (allowed : Qualifier → Bool) :
    eval position present (oneOf lattice id allowed) = allowed a := by
  rw [oneOf, eval_or, Bool.eq_iff_iff, List.any_eq_true]
  simp only [List.mem_map, List.mem_filter, Lattice.qualifiers, List.mem_range]
  constructor
  · rintro ⟨_, ⟨q, ⟨-, hq⟩, rfl⟩, heval⟩
    rw [eval_is h, beq_iff_eq] at heval
    exact heval ▸ hq
  · intro hallowed
    exact ⟨_, ⟨a, ⟨ha, hallowed⟩, rfl⟩, by simp [eval_is h]⟩

-- Of all the implications, only the one for the right qualifier counts.
theorem eval_forEach {id : SlotId} {a : Qualifier} (h : position id = a) (ha : a < lattice.size)
    (consequent : Qualifier → Term) :
    eval position present
        (.and (lattice.qualifiers.map fun q => implies (.is id q) (consequent q))) =
      eval position present (consequent a) := by
  rw [eval_and, Bool.eq_iff_iff, List.all_eq_true, List.forall_mem_map]
  have hone : ∀ q, eval position present (implies (.is id q) (consequent q)) = true ↔
      (a = q → eval position present (consequent q) = true) := by
    intro q
    rw [eval_implies, eval_is h]
    by_cases heq : a = q
    · simp [heq]
    · simp [heq]
  simp only [hone]
  exact Numbering.forall_mem_qualifiers ha

theorem eval_related {first second : SlotId} {a b : Qualifier} (hfirst : position first = a)
    (ha : a < lattice.size) (hsecond : position second = b) (hb : b < lattice.size)
    (allowed : Qualifier → Qualifier → Bool) :
    eval position present (related lattice first second allowed) = allowed a b := by
  rw [related, eval_forEach hfirst ha, eval_oneOf hsecond hb]

theorem eval_variableConstant {id : SlotId} {a : Qualifier} (h : position id = a)
    (ha : a < lattice.size) (kind : Relation) (q : Qualifier) :
    eval position present (variableConstant lattice kind id q) = kind.holds lattice a q := by
  cases kind with
  | comparable => exact eval_oneOf h ha _
  | equality => exact eval_is h q
  | inequality => exact congrArg (!·) (eval_is h q)
  | subtype => exact eval_oneOf h ha _

theorem eval_constantVariable {id : SlotId} {a : Qualifier} (h : position id = a)
    (ha : a < lattice.size) (kind : Relation) (q : Qualifier) :
    eval position present (constantVariable lattice kind q id) = kind.holds lattice q a := by
  rcases kind.eq_subtype_or_isSymmetric with rfl | hsymmetric
  · exact eval_oneOf h ha _
  · rw [Relation.holds_comm hsymmetric, ← eval_variableConstant h ha kind q]
    cases kind with
    | subtype => cases hsymmetric
    | _ => rfl

theorem eval_variableVariable {first second : SlotId} {a b : Qualifier}
    (hfirst : position first = a) (ha : a < lattice.size) (hsecond : position second = b)
    (hb : b < lattice.size) (kind : Relation) :
    eval position present (variableVariable lattice kind first second) =
      kind.holds lattice a b := by
  have hsame : eval position present (.same first second) = (a == b) := by
    rw [eval, hfirst, hsecond, Bool.eq_iff_iff, beq_iff_eq, beq_iff_eq]
    exact Int.natCast_inj
  cases kind with
  | comparable => exact eval_related hfirst ha hsecond hb _
  | equality => exact hsame
  | inequality => exact congrArg (!·) hsame
  | subtype => exact eval_related hfirst ha hsecond hb _

end Leaves

end Term

def Operand.Denotes (lattice : Lattice) (position : SlotId → Int) : Operand → Qualifier → Prop
  | .constant q, value => value = q
  | .slot id, value => position id = value ∧ value < lattice.size

-- A variable operand asks for every qualifier it could have, and only the one it has says
-- something about the result.
theorem Term.eval_ofFunction {position : SlotId → Int} {present : SlotId → Bool}
    {lattice : Lattice} (table : TableFunction) {result : SlotId} {left right : Operand}
    {r a b : Qualifier} (hresult : position result = r)
    (hleft : left.Denotes lattice position a) (hright : right.Denotes lattice position b) :
    eval position present (ofFunction lattice table result (left, right)) =
      (r == table.apply lattice a b) := by
  cases left with
  | constant p =>
      obtain rfl : a = p := hleft
      cases right with
      | constant q =>
          obtain rfl : b = q := hright
          exact eval_is hresult _
      | slot w =>
          obtain ⟨hw, hb⟩ := hright
          rw [ofFunction, eval_forEach hw hb, eval_is hresult]
  | slot v =>
      obtain ⟨hv, ha⟩ := hleft
      cases right with
      | constant q =>
          obtain rfl : b = q := hright
          rw [ofFunction, eval_forEach hv ha, eval_is hresult]
      | slot w =>
          obtain ⟨hw, hb⟩ := hright
          -- For each qualifier of the left operand, a conjunction over those of the right one.
          have hrow : ∀ x, (lattice.qualifiers.map fun y =>
              implies (.and [.is v x, .is w y]) (.is result (table.apply lattice x y))).all
                (eval position present) =
              eval position present (implies (.is v x) (.and (lattice.qualifiers.map fun y =>
                implies (.is w y) (.is result (table.apply lattice x y))))) := by
            intro x
            cases hx : eval position present (.is v x) with
            | true => simp [hx, Function.comp_def]
            | false => simp [hx, Function.comp_def]
          have hflat : eval position present
              (ofFunction lattice table result (.slot v, .slot w)) =
              eval position present (.and (lattice.qualifiers.map fun x => implies (.is v x)
                (.and (lattice.qualifiers.map fun y =>
                  implies (.is w y) (.is result (table.apply lattice x y)))))) := by
            rw [ofFunction, eval_and, eval_and, List.all_flatMap, List.all_map]
            exact congrArg lattice.qualifiers.all (funext hrow)
          rw [hflat, eval_forEach hv ha, eval_forEach hw hb, eval_is hresult]

namespace Interpretation

def position (interpretation : Interpretation) (id : SlotId) : Int :=
  interpretation.choice id

section Leaves

variable {registry : Registry} {interpretation : Interpretation} (hwf : registry.WellFormed)
  (hrange : interpretation.InRange registry)
include hwf hrange

theorem operand_denotes {id : SlotId} {operand : Operand}
    (h : registry.operand id = .ok operand) :
    operand.Denotes registry.lattice interpretation.position
      (interpretation.value registry id) := by
  rcases hwf.operand_cases h with ⟨q, rfl, -, hconstant⟩ | ⟨rfl, hid, hconstant⟩
  · rw [value, hconstant]
    rfl
  · rw [value, hconstant]
    exact ⟨rfl, hrange id hid⟩

theorem eval_ofRelation {kind : Relation} {first second : SlotId} {location : Location}
    {route : RelationRoute} (h : registry.relationRoute kind first second location = .ok route) :
    (Term.ofRelation registry.lattice kind route).eval interpretation.position
        interpretation.present =
      kind.holds registry.lattice (interpretation.value registry first)
        (interpretation.value registry second) := by
  obtain ⟨a, b, ha, hb, hroute⟩ := Registry.relationRoute_cases h
  have hfirst := operand_denotes hwf hrange ha
  have hsecond := operand_denotes hwf hrange hb
  rcases hroute with ⟨q, id, rfl, rfl, rfl⟩ | ⟨id, q, rfl, rfl, rfl⟩ | ⟨v, w, rfl, rfl, rfl⟩
  · obtain ⟨hposition, hlt⟩ := hsecond
    rw [show interpretation.value registry first = q from hfirst]
    exact Term.eval_constantVariable hposition hlt kind q
  · obtain ⟨hposition, hlt⟩ := hfirst
    rw [show interpretation.value registry second = q from hsecond]
    exact Term.eval_variableConstant hposition hlt kind q
  · exact Term.eval_variableVariable hfirst.1 hfirst.2 hsecond.1 hsecond.2 kind

theorem eval_ofFunction {table : TableFunction} {left right result : SlotId} {location : Location}
    {operands : Operand × Operand}
    (h : registry.functionRoute table left right result location = .ok operands) :
    (Term.ofFunction registry.lattice table result operands).eval interpretation.position
        interpretation.present =
      (interpretation.value registry result ==
        table.apply registry.lattice (interpretation.value registry left)
          (interpretation.value registry right)) := by
  obtain ⟨id, hresult, hleft, hright⟩ := Registry.functionRoute_cases h
  have hdenotes := operand_denotes hwf hrange hresult
  rcases hwf.operand_cases hresult with ⟨q, heq, -⟩ | ⟨heq, -⟩
  · cases heq
  · cases heq
    exact Term.eval_ofFunction table hdenotes.1 (operand_denotes hwf hrange hleft)
      (operand_denotes hwf hrange hright)

end Leaves

end Interpretation

namespace Constraint

variable {registry : Registry}

-- The terms of a list of parts are the parts one by one, so that the conjunctions agree.
theorem all_termsOfAll {interpretation : Interpretation} {parts : List Constraint}
    {terms : List Term}
    (hparts : ∀ part ∈ parts, ∀ t, term registry part = .ok t →
      t.eval interpretation.position interpretation.present = interpretation.eval registry part)
    (h : termsOfAll registry parts = .ok terms) :
    terms.all (Term.eval interpretation.position interpretation.present) =
      interpretation.evalAll registry parts := by
  induction parts generalizing terms with
  | nil =>
      cases h
      rfl
  | cons c rest ih =>
      rw [termsOfAll] at h
      obtain ⟨t, others, ht, hothers, rfl⟩ := Except.bind₂_return_eq_ok.mp h
      obtain ⟨hc, hrest⟩ := List.forall_mem_cons.mp hparts
      rw [List.all_cons, hc t ht, ih hrest hothers, Interpretation.evalAll]

-- A term says what its constraint means.
theorem eval_term {interpretation : Interpretation} (hwf : registry.WellFormed)
    (hrange : interpretation.InRange registry) (c : Constraint) {t : Term}
    (h : term registry c = .ok t) :
    t.eval interpretation.position interpretation.present = interpretation.eval registry c := by
  induction c generalizing t with
  | alwaysTrue =>
      cases h
      rfl
  | alwaysFalse =>
      cases h
      rfl
  | relation kind first second location =>
      rw [term] at h
      obtain ⟨route, hroute, rfl⟩ := Except.bind_return_eq_ok.mp h
      exact Interpretation.eval_ofRelation hwf hrange hroute
  | function table left right result location =>
      rw [term] at h
      obtain ⟨operands, hoperands, rfl⟩ := Except.bind_return_eq_ok.mp h
      exact Interpretation.eval_ofFunction hwf hrange hoperands
  | preference subject goal q weight location => cases h
  | existential potential present absent location ihpresent ihabsent =>
      rw [term] at h
      obtain ⟨ps, as, hps, has, rfl⟩ := Except.bind₂_return_eq_ok.mp h
      have hps := all_termsOfAll (fun c hc _ => ihpresent c hc) hps
      have has := all_termsOfAll (fun c hc _ => ihabsent c hc) has
      rw [Interpretation.eval, ← hps, ← has]
      cases hpresent : interpretation.present potential with
      | true => simp [hpresent]
      | false => simp [hpresent]
  | implication assumptions conclusion location ihassumptions ihconclusion =>
      rw [term] at h
      obtain ⟨as, t, has, ht, rfl⟩ := Except.bind₂_return_eq_ok.mp h
      have has := all_termsOfAll (fun c hc _ => ihassumptions c hc) has
      rw [Interpretation.eval, ← has, ← ihconclusion ht, Term.eval_implies, Term.eval_and]

theorem outcome_termsOfAll {numbering : Numbering} {parts : List Constraint}
    (h : ∀ part ∈ parts, Except.outcome (term registry part) =
      Except.outcome (idealClauses registry numbering part)) :
    Except.outcome (termsOfAll registry parts) =
      Except.outcome (idealClausesOfAll registry numbering parts) := by
  induction parts with
  | nil => rfl
  | cons c rest ih =>
      obtain ⟨hc, hrest⟩ := List.forall_mem_cons.mp h
      rw [termsOfAll, idealClausesOfAll, Except.outcome_bind₂_return, Except.outcome_bind₂_return, hc,
        ih hrest]

-- The two encodings meet the parts of a constraint in the same order, and so the same failure.
theorem outcome_term (registry : Registry) (numbering : Numbering) (c : Constraint) :
    Except.outcome (term registry c) = Except.outcome (idealClauses registry numbering c) := by
  induction c with
  | alwaysTrue => rfl
  | alwaysFalse => rfl
  | relation kind first second location =>
      rw [term, idealClauses, Except.outcome_bind_return, Except.outcome_bind_return]
  | function table left right result location =>
      rw [term, idealClauses, Except.outcome_bind_return, Except.outcome_bind_return]
  | preference subject goal q weight location => rfl
  | existential potential present absent location ihpresent ihabsent =>
      rw [term, idealClauses, Except.outcome_bind₂_return, Except.outcome_bind₂_return,
        outcome_termsOfAll ihpresent, outcome_termsOfAll ihabsent]
  | implication assumptions conclusion location ihassumptions ihconclusion =>
      rw [term, idealClauses, Except.outcome_bind₂_return, Except.outcome_bind₂_return,
        outcome_termsOfAll ihassumptions, ihconclusion]

theorem termsOfAll_ne_fault {registry : Registry} {parts : List Constraint}
    (hparts : ∀ c ∈ parts, ∀ cause, c.term registry ≠ .error (.fault cause)) (cause : Fault) :
    termsOfAll registry parts ≠ .error (.fault cause) := by
  induction parts with
  | nil => exact fun h => by cases h
  | cons c rest ih =>
      obtain ⟨hc, hrest⟩ := List.forall_mem_cons.mp hparts
      intro h
      rw [termsOfAll] at h
      rcases Except.bind_eq_error.mp h with h | ⟨first, -, h⟩
      · exact hc cause h
      · exact ih hrest (Except.bind_return_eq_error.mp h)

-- Writing terms never breaks off.
theorem term_ne_fault {registry : Registry} (c : Constraint) (cause : Fault) :
    c.term registry ≠ .error (.fault cause) := by
  induction c generalizing cause with
  | alwaysTrue | alwaysFalse | preference => exact fun h => by cases h
  | relation kind first second location =>
      exact fun h => registry.relationRoute_ne_fault cause (Except.bind_return_eq_error.mp h)
  | function table left right result location =>
      exact fun h => registry.functionRoute_ne_fault cause (Except.bind_return_eq_error.mp h)
  | existential potential present absent location ihpresent ihabsent =>
      intro h
      rw [term] at h
      rcases Except.bind_eq_error.mp h with h | ⟨terms, -, h⟩
      · exact termsOfAll_ne_fault ihpresent cause h
      · exact termsOfAll_ne_fault ihabsent cause (Except.bind_return_eq_error.mp h)
  | implication assumptions conclusion location ihassumptions ihconclusion =>
      intro h
      rw [term] at h
      rcases Except.bind_eq_error.mp h with h | ⟨terms, -, h⟩
      · exact termsOfAll_ne_fault ihassumptions cause h
      · exact ihconclusion cause (Except.bind_return_eq_error.mp h)

end Constraint

end Qualify
