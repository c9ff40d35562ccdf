import Qualify.Proofs.Script.Models
import Qualify.Proofs.Term.Folding

namespace Qualify

-- What has been made stays usable when slots are added.
theorem Constraint.Built.mono {registry later : Registry} {c : Constraint}
    (h : Built registry c) (hlater : registry.Reaches later) : Built later c := by
  induction h with
  | alwaysTrue => exact .alwaysTrue
  | alwaysFalse => exact .alwaysFalse
  | relate hearlier h => exact .relate (hearlier.trans hlater) h
  | compute hearlier h => exact .compute (hearlier.trans hlater) h
  | computeAtResult hearlier h => exact .computeAtResult (hearlier.trans hlater) h
  | prefer hearlier h => exact .prefer (hearlier.trans hlater) h
  | branch hearlier _ _ h ihpresent ihabsent =>
      exact .branch (hearlier.trans hlater) ihpresent ihabsent h
  | imply _ _ h ihassumptions ihconclusion => exact .imply ihassumptions ihconclusion h

namespace Script

-- One constraint more fails by itself, or it leaves the others as they are.
theorem hardFrom_cons_isOk_iff {registry : Registry} {c : Constraint} {rest : List Constraint}
    {start : Nat} :
    (∃ hard, hardFrom registry start (c :: rest) = .ok hard) ↔
      (c.isSoft = false → ∃ t, c.term registry = .ok t ∧ t.simplify ≠ .const false) ∧
        ∃ hard, hardFrom registry (start + 1) rest = .ok hard := by
  rw [hardFrom]
  cases hsoft : c.isSoft with
  | true => simp
  | false =>
      cases hterm : c.term registry with
      | error e =>
          refine iff_of_false ?_ (by simp)
          rintro ⟨hard, hhard⟩
          cases hhard
      | ok t =>
          rw [if_neg (by simp), Except.bind_of_ok rfl]
          cases hsimplify : t.simplify with
          | const value =>
              cases value with
              | true => simp [hsimplify]
              | false => simp [hsimplify]
          | _ =>
              refine Iff.trans Except.exists_bind_return_eq_ok (and_iff_right fun _ => ?_).symm
              exact ⟨t, rfl, by simp [hsimplify]⟩

theorem hardFrom_isOk_iff {registry : Registry} {constraints : List Constraint} {start : Nat} :
    (∃ hard, hardFrom registry start constraints = .ok hard) ↔
      ∀ c ∈ constraints, c.isSoft = false →
        ∃ t, c.term registry = .ok t ∧ t.simplify ≠ .const false := by
  induction constraints generalizing start with
  | nil => exact iff_of_true ⟨[], rfl⟩ (by simp)
  | cons c rest ih => rw [hardFrom_cons_isOk_iff, ih, List.forall_mem_cons]

theorem ofConstraints_isOk_iff {registry : Registry} {constraints : List Constraint}
    {mode : ScriptMode} :
    (∃ script, ofConstraints registry constraints mode = .ok script) ↔
      ∃ hard, hardFrom registry 0 constraints = .ok hard :=
  Except.exists_bind_return_eq_ok

end Script

namespace Constraint

-- Only the constants fold to constants.
theorem Built.eq_ofBool {registry : Registry} (hreachable : registry.Reachable) {c : Constraint}
    (h : Built registry c) {t : Term} (ht : c.term registry = .ok t) {value : Bool}
    (hconst : t.simplify = .const value) : c = ofBool value := by
  cases c with
  | alwaysTrue =>
      cases ht
      cases hconst
      rfl
  | alwaysFalse =>
      cases ht
      cases hconst
      rfl
  | preference subject goal q weight location => cases ht
  | _ => exact absurd hconst ((h.undecided hreachable rfl rfl rfl t ht).ne_const value)

end Constraint

namespace Script

-- What is made by the factories is encoded at any later time, unless the numbers that this takes are
-- too large: where all variables have a number, this happens exactly when there is no room for the
-- clauses of an implication. Only a constraint that is false by its form keeps a script from being
-- written.
theorem encodes_built {registry later : Registry} (hreachable : registry.Reachable)
    (hlater : registry.Reaches later) {constraints : List Constraint}
    (hbuilt : ∀ c ∈ constraints, Constraint.Built registry c) :
    (∀ e, Cnf.encode later constraints = .error e → e = .fault .overflow) ∧
      (later.slots.size * later.lattice.size +
          (Constraint.potentialsOfAll constraints).dedup.length < 0x80000000 →
        ((∃ cnf, Cnf.encode later constraints = .ok cnf) ↔ Cnf.HasRoom later constraints)) ∧
      (∀ mode, (∃ script, ofConstraints later constraints mode = .ok script) ↔
        Constraint.alwaysFalse ∉ constraints) ∧
      ∀ c ∈ constraints, ∀ t value, c.term later = .ok t → t.simplify = .const value →
        c = Constraint.ofBool value := by
  have hreachable := hreachable.reaches hlater
  have hbuilt := fun c hc => (hbuilt c hc).mono hlater
  have hencodable : ∀ c ∈ constraints, c.Encodable later := fun c hc => (hbuilt c hc).succeeds
  have hconst : ∀ c ∈ constraints, ∀ t value, c.term later = .ok t → t.simplify = .const value →
      c = Constraint.ofBool value :=
    fun c hc t value ht hvalue => (hbuilt c hc).eq_ofBool hreachable ht hvalue
  refine ⟨fun e => Cnf.encode_eq_error hencodable, fun hcount => ?_, fun mode => ?_, hconst⟩
  · exact Cnf.encode_isOk_iff hreachable.wellFormed hencodable (Cnf.numberingOf_fits hcount)
  · rw [ofConstraints_isOk_iff, hardFrom_isOk_iff]
    constructor
    · intro hall hfalse
      obtain ⟨t, ht, hne⟩ := hall _ hfalse rfl
      cases ht
      exact hne rfl
    · intro hfalse c hc hsoft
      obtain ⟨t, ht⟩ := (hencodable c hc).exists_term hsoft
      refine ⟨t, ht, fun hvalue => ?_⟩
      have heq : c = .alwaysFalse := hconst c hc t false ht hvalue
      exact hfalse (heq ▸ hc)

open Registry in
theorem taintFlow_encodes_built :
    taint.Reachable ∧ taint.Reaches (taint.after (.lub sourceSlot sinkSlot)) ∧
      (∀ c ∈ Cnf.taintFlow, Constraint.Built taint c) ∧
      (∃ cnf, Cnf.encode (taint.after (.lub sourceSlot sinkSlot)) Cnf.taintFlow = .ok cnf) ∧
      ∀ mode, ∃ script,
        ofConstraints (taint.after (.lub sourceSlot sinkSlot)) Cnf.taintFlow mode = .ok script := by
  have hlater : taint.Reaches (taint.after (.lub sourceSlot sinkSlot)) := Reaches.refl.step _
  obtain ⟨-, hencode, hscript, -⟩ := encodes_built taint_reachable hlater Cnf.taintFlow_built
  exact ⟨taint_reachable, hlater, Cnf.taintFlow_built, (hencode (by decide)).mpr (by decide),
    fun mode => (hscript mode).mpr (by simp [Cnf.taintFlow])⟩

open Registry in
theorem crowdedRule_not_encoded :
    taint.Reachable ∧ Constraint.Built taint crowdedRule ∧
      Cnf.encode taint [crowdedRule] = .error (.fault .overflow) := by
  have hencodable : ∀ c ∈ [crowdedRule], c.Encodable taint :=
    List.forall_mem_singleton.mpr crowdedRule_built.succeeds
  have hroom : ¬Cnf.HasRoom taint [crowdedRule] := by decide +kernel
  refine ⟨taint_reachable, crowdedRule_built, ?_⟩
  rw [Cnf.encode_eq taint_reachable.wellFormed hencodable (Cnf.numberingOf_fits (by decide)),
    if_neg hroom]

end Script

end Qualify
