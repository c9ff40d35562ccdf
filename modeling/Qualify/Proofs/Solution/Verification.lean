import Qualify.Proofs.Solution.Meaning

namespace Qualify

namespace Constraint

mutual

-- Whether existential constraints occur in positive positions only, in a constraint that stands in
-- a position of the given sign. The assumptions of an implication have the opposite sign.
def existentialsPositive (sign : Bool) : Constraint → Bool
  | existential _ present absent _ =>
      sign && existentialsPositiveAll sign present && existentialsPositiveAll sign absent
  | implication assumptions conclusion _ =>
      existentialsPositiveAll (!sign) assumptions && existentialsPositive sign conclusion
  | _ => true

def existentialsPositiveAll (sign : Bool) : List Constraint → Bool
  | [] => true
  | c :: rest => existentialsPositive sign c && existentialsPositiveAll sign rest

end

theorem existentialsPositiveAll_iff (sign : Bool) (parts : List Constraint) :
    existentialsPositiveAll sign parts = true ↔
      ∀ part ∈ parts, part.existentialsPositive sign = true := by
  induction parts with
  | nil => simp [existentialsPositiveAll]
  | cons c rest ih => simp [existentialsPositiveAll, ih]

end Constraint

namespace Solution

variable {solution : Solution} {registry : Registry}

theorem holds_existential_eq {potential : SlotId} {present absent : List Constraint}
    {location : Location} {a b : Bool} (ha : solution.holdsAll registry present = .ok a)
    (hb : solution.holdsAll registry absent = .ok b) :
    solution.holds registry (.existential potential present absent location) = .ok (a || b) := by
  rw [holds, ha]
  cases a with
  | true => rfl
  | false => exact hb

theorem holds_implication_eq {assumptions : List Constraint} {conclusion : Constraint}
    {location : Location} {a b : Bool} (ha : solution.holdsAll registry assumptions = .ok a)
    (hb : solution.holds registry conclusion = .ok b) :
    solution.holds registry (.implication assumptions conclusion location) = .ok (!a || b) := by
  rw [holds, ha]
  cases a with
  | true => exact hb
  | false => rfl

-- The conjunction stops at the first `false`, so that later verdicts matter only if all before
-- are `true`.
theorem holdsAll_cases {parts : List Constraint}
    (h : ∀ part ∈ parts, ∃ verdict, solution.holds registry part = .ok verdict) :
    ∃ verdict, solution.holdsAll registry parts = .ok verdict ∧
      (verdict = true ↔ ∀ part ∈ parts, solution.holds registry part = .ok true) := by
  induction parts with
  | nil => exact ⟨true, rfl, by simp⟩
  | cons c rest ih =>
      obtain ⟨⟨first, hfirst⟩, hrest⟩ := List.forall_mem_cons.mp h
      obtain ⟨others, hothers, hiff⟩ := ih hrest
      refine ⟨first && others, ?_, ?_⟩
      · rw [holdsAll, hfirst]
        cases first with
        | true => exact hothers
        | false => rfl
      · rw [List.forall_mem_cons, ← hiff, hfirst]
        simp

-- By induction on the constraints; a constraint that holds is passed over.
theorem firstViolation_cases {constraints : List Constraint}
    (h : ∀ c ∈ constraints, ∃ verdict, solution.holds registry c = .ok verdict) :
    (solution.firstViolation registry constraints = .ok none ∧
        ∀ c ∈ constraints, solution.holds registry c = .ok true) ∨
      ∃ c ∈ constraints, solution.firstViolation registry constraints = .ok (some c) ∧
        solution.holds registry c = .ok false := by
  induction constraints with
  | nil => exact .inl ⟨rfl, by simp⟩
  | cons c rest ih =>
      obtain ⟨⟨first, hfirst⟩, hrest⟩ := List.forall_mem_cons.mp h
      cases first with
      | true =>
          have hstep : solution.firstViolation registry (c :: rest) =
              solution.firstViolation registry rest := by
            rw [firstViolation, hfirst]
            rfl
          rw [hstep, List.forall_mem_cons]
          rcases ih hrest with ⟨hnone, hall⟩ | ⟨other, hother, hsome, hfalse⟩
          · exact .inl ⟨hnone, hfirst, hall⟩
          · exact .inr ⟨other, List.mem_cons_of_mem _ hother, hsome, hfalse⟩
      | false =>
          refine .inr ⟨c, List.mem_cons_self, ?_, hfirst⟩
          rw [firstViolation, hfirst]
          rfl

theorem firstViolation_eq_none_iff {constraints : List Constraint} :
    solution.firstViolation registry constraints = .ok none ↔
      ∀ c ∈ constraints, solution.holds registry c = .ok true := by
  induction constraints with
  | nil => simp [firstViolation]
  | cons c rest ih =>
      rw [firstViolation, List.forall_mem_cons, ← ih, Except.bind_eq_ok]
      constructor
      · rintro ⟨verdict, hverdict, hrest⟩
        cases verdict with
        | true => exact ⟨hverdict, hrest⟩
        | false => cases hrest
      · rintro ⟨hverdict, hrest⟩
        exact ⟨true, hverdict, hrest⟩

end Solution

namespace Interpretation

variable {interpretation : Interpretation} {registry : Registry}

-- Constants agree by definition, and a variable has the value the interpretation chose within the
-- range.
theorem value_solution (hwf : registry.WellFormed) (hrange : interpretation.InRange registry)
    {id : SlotId} {operand : Operand} (h : registry.operand id = .ok operand) :
    (interpretation.solution registry).value registry id =
      .ok (interpretation.value registry id) := by
  obtain ⟨slot, hslot, -⟩ := Except.bind_eq_ok.mp h
  have hget := Registry.slot_eq_ok.mp (Except.mapError_eq_ok.mp hslot)
  unfold Solution.value Interpretation.value
  rw [Except.bind_eq_ok]
  refine ⟨slot, hslot, ?_⟩
  rw [hget, Option.bind_some]
  cases hconstant : slot.constant? with
  | some q => rfl
  | none =>
      have hid := (hwf.mem_variableSlots hget).mpr hconstant
      have hcontains : registry.lattice.contains (interpretation.choice id) = true :=
        decide_eq_true (hrange id hid)
      simp [get?_solution hid, hcontains]
      rfl

theorem holds_relation (hwf : registry.WellFormed) (hrange : interpretation.InRange registry)
    {kind : Relation} {first second : SlotId} {location : Location}
    (h : (registry.relationRoute kind first second location).isOk = true) :
    (interpretation.solution registry).holds registry (.relation kind first second location) =
      .ok (interpretation.eval registry (.relation kind first second location)) := by
  obtain ⟨route, hroute⟩ := Except.isOk_iff.mp h
  obtain ⟨a, b, ha, hb, -⟩ := Registry.relationRoute_cases hroute
  rw [Solution.holds, value_solution hwf hrange ha, value_solution hwf hrange hb]
  rfl

theorem holds_function (hwf : registry.WellFormed) (hrange : interpretation.InRange registry)
    {table : TableFunction} {left right result : SlotId} {location : Location}
    (h : (registry.functionRoute table left right result location).isOk = true) :
    (interpretation.solution registry).holds registry
        (.function table left right result location) =
      .ok (interpretation.eval registry (.function table left right result location)) := by
  obtain ⟨operands, hoperands⟩ := Except.isOk_iff.mp h
  obtain ⟨id, hr, ha, hb⟩ := Registry.functionRoute_cases hoperands
  rw [Solution.holds, value_solution hwf hrange hr, value_solution hwf hrange ha,
    value_solution hwf hrange hb]
  rfl

theorem succeeds_of_mem {parts : List Constraint}
    (h : ∀ visit ∈ Constraint.visitsOfAll parts, visit.succeeds registry = true) :
    ∀ part ∈ parts, ∀ visit ∈ part.visits, visit.succeeds registry = true := by
  rw [Constraint.visitsOfAll_eq] at h
  exact List.forall_mem_flatMap.mp h

-- By induction on the constraint: only looking up a slot can fail, and the visits look up all of
-- them.
theorem holds_isOk (hwf : registry.WellFormed) (hrange : interpretation.InRange registry)
    (c : Constraint) (hsucceeds : ∀ visit ∈ c.visits, visit.succeeds registry = true) :
    ∃ verdict, (interpretation.solution registry).holds registry c = .ok verdict := by
  induction c with
  | alwaysTrue => exact ⟨true, rfl⟩
  | alwaysFalse => exact ⟨false, rfl⟩
  | relation kind first second location =>
      exact ⟨_, holds_relation hwf hrange (hsucceeds _ List.mem_cons_self)⟩
  | function table left right result location =>
      exact ⟨_, holds_function hwf hrange (hsucceeds _ List.mem_cons_self)⟩
  | preference subject goal q weight location => exact ⟨true, rfl⟩
  | existential potential present absent location ihpresent ihabsent =>
      rw [Constraint.visits, List.forall_mem_cons, List.forall_mem_append] at hsucceeds
      obtain ⟨-, hpresent, habsent⟩ := hsucceeds
      obtain ⟨a, ha, -⟩ := Solution.holdsAll_cases fun part hpart =>
        ihpresent part hpart (succeeds_of_mem hpresent part hpart)
      obtain ⟨b, hb, -⟩ := Solution.holdsAll_cases fun part hpart =>
        ihabsent part hpart (succeeds_of_mem habsent part hpart)
      exact ⟨_, Solution.holds_existential_eq ha hb⟩
  | implication assumptions conclusion location ihassumptions ihconclusion =>
      rw [Constraint.visits, List.forall_mem_append] at hsucceeds
      obtain ⟨hassumptions, hconclusion⟩ := hsucceeds
      obtain ⟨a, ha, -⟩ := Solution.holdsAll_cases fun part hpart =>
        ihassumptions part hpart (succeeds_of_mem hassumptions part hpart)
      obtain ⟨b, hb⟩ := ihconclusion hconclusion
      exact ⟨_, Solution.holds_implication_eq ha hb⟩

-- What the check of a solution has to do with the meaning of a constraint: it accepts at least
-- what is meant in a positive position, and at most that in a negative one.
def CheckedAt (interpretation : Interpretation) (registry : Registry) (c : Constraint) :
    Bool → Prop
  | true => interpretation.eval registry c = true →
      (interpretation.solution registry).holds registry c = .ok true
  | false => (interpretation.solution registry).holds registry c = .ok true →
      interpretation.eval registry c = true

theorem checkedAt_of_eq {c : Constraint} {sign : Bool}
    (h : (interpretation.solution registry).holds registry c =
      .ok (interpretation.eval registry c)) : interpretation.CheckedAt registry c sign := by
  cases sign with
  | true => exact fun heval => h.trans (congrArg _ heval)
  | false => exact fun hholds => Except.ok.inj (h.symm.trans hholds)

-- One branch is enough for the check, while an interpretation says which branch it has to be.
theorem checkedAt_existential {potential : SlotId} {present absent : List Constraint}
    {location : Location}
    (hpresent : ∀ part ∈ present,
      ∃ verdict, (interpretation.solution registry).holds registry part = .ok verdict)
    (habsent : ∀ part ∈ absent,
      ∃ verdict, (interpretation.solution registry).holds registry part = .ok verdict)
    (hchecked : ∀ part ∈ present, interpretation.CheckedAt registry part true)
    (hchecked' : ∀ part ∈ absent, interpretation.CheckedAt registry part true) :
    interpretation.CheckedAt registry (.existential potential present absent location) true := by
  obtain ⟨a, ha, haiff⟩ := Solution.holdsAll_cases hpresent
  obtain ⟨b, hb, hbiff⟩ := Solution.holdsAll_cases habsent
  intro heval
  rw [Solution.holds_existential_eq ha hb]
  rw [eval] at heval
  cases hpotential : interpretation.present potential with
  | true =>
      rw [hpotential, if_pos rfl, evalAll_iff] at heval
      have hholds := haiff.mpr fun part hpart => hchecked part hpart (heval part hpart)
      rw [hholds, Bool.true_or]
  | false =>
      rw [hpotential, if_neg Bool.false_ne_true, evalAll_iff] at heval
      have hholds := hbiff.mpr fun part hpart => hchecked' part hpart (heval part hpart)
      rw [hholds, Bool.or_true]

-- The assumptions stand under the opposite sign: for the implication to be checked one way, they
-- are checked the other.
theorem checkedAt_implication {assumptions : List Constraint} {conclusion : Constraint}
    {location : Location} {sign : Bool}
    (hassumptions : ∀ part ∈ assumptions,
      ∃ verdict, (interpretation.solution registry).holds registry part = .ok verdict)
    (hconclusion : ∃ verdict,
      (interpretation.solution registry).holds registry conclusion = .ok verdict)
    (hopposite : ∀ part ∈ assumptions, interpretation.CheckedAt registry part (!sign))
    (hsame : interpretation.CheckedAt registry conclusion sign) :
    interpretation.CheckedAt registry (.implication assumptions conclusion location) sign := by
  obtain ⟨a, ha, haiff⟩ := Solution.holdsAll_cases hassumptions
  obtain ⟨b, hb⟩ := hconclusion
  cases sign with
  | true =>
      intro heval
      rw [Solution.holds_implication_eq ha hb]
      cases a with
      | false => rfl
      | true =>
          have hall := (evalAll_iff interpretation registry assumptions).mpr fun part hpart =>
            hopposite part hpart (haiff.mp rfl part hpart)
          rw [eval, hall, Bool.not_true, Bool.false_or] at heval
          exact hb.symm.trans (hsame heval)
  | false =>
      intro hholds
      rw [eval]
      cases hall : interpretation.evalAll registry assumptions with
      | false => rfl
      | true =>
          have htrue := haiff.mpr fun part hpart => hopposite part hpart
            ((evalAll_iff interpretation registry assumptions).mp hall part hpart)
          rw [Solution.holds_implication_eq ha hb, htrue, Bool.not_true, Bool.false_or] at hholds
          exact hsame (hb.trans hholds)

-- By induction on the constraint, for both signs at once, since an implication turns the sign of
-- its assumptions.
theorem checkedAt (hwf : registry.WellFormed) (hrange : interpretation.InRange registry)
    (c : Constraint) (hsucceeds : ∀ visit ∈ c.visits, visit.succeeds registry = true)
    (sign : Bool) (hsign : c.existentialsPositive sign = true) :
    interpretation.CheckedAt registry c sign := by
  have hok : ∀ parts : List Constraint,
      (∀ visit ∈ Constraint.visitsOfAll parts, visit.succeeds registry = true) →
      ∀ part ∈ parts,
        ∃ verdict, (interpretation.solution registry).holds registry part = .ok verdict :=
    fun parts h part hpart => holds_isOk hwf hrange part (succeeds_of_mem h part hpart)
  induction c generalizing sign with
  | alwaysTrue => exact checkedAt_of_eq rfl
  | alwaysFalse => exact checkedAt_of_eq rfl
  | relation kind first second location =>
      exact checkedAt_of_eq (holds_relation hwf hrange (hsucceeds _ List.mem_cons_self))
  | function table left right result location =>
      exact checkedAt_of_eq (holds_function hwf hrange (hsucceeds _ List.mem_cons_self))
  | preference subject goal q weight location => exact checkedAt_of_eq rfl
  | existential potential present absent location ihpresent ihabsent =>
      rw [Constraint.visits, List.forall_mem_cons, List.forall_mem_append] at hsucceeds
      obtain ⟨-, hpresent, habsent⟩ := hsucceeds
      simp only [Constraint.existentialsPositive, Bool.and_eq_true,
        Constraint.existentialsPositiveAll_iff] at hsign
      obtain ⟨⟨rfl, hpositive⟩, hpositive'⟩ := hsign
      exact checkedAt_existential (hok present hpresent) (hok absent habsent)
        (fun part hpart => ihpresent part hpart (succeeds_of_mem hpresent part hpart) true
          (hpositive part hpart))
        (fun part hpart => ihabsent part hpart (succeeds_of_mem habsent part hpart) true
          (hpositive' part hpart))
  | implication assumptions conclusion location ihassumptions ihconclusion =>
      rw [Constraint.visits, List.forall_mem_append] at hsucceeds
      obtain ⟨hassumptions, hconclusion⟩ := hsucceeds
      simp only [Constraint.existentialsPositive, Bool.and_eq_true,
        Constraint.existentialsPositiveAll_iff] at hsign
      exact checkedAt_implication (hok assumptions hassumptions)
        (holds_isOk hwf hrange conclusion hconclusion)
        (fun part hpart => ihassumptions part hpart (succeeds_of_mem hassumptions part hpart)
          (!sign) (hsign.1 part hpart))
        (ihconclusion hconclusion sign hsign.2)

end Interpretation

end Qualify
