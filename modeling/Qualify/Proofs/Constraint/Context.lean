import Mathlib.Logic.Relation
import Qualify.Proofs.Constraint.Sameness

namespace Qualify.Constraint

-- What stands around one part of a constraint.
inductive Frame where
  | inPresent (potential : SlotId) (before after absent : List Constraint) (location : Location)
  | inAbsent (potential : SlotId) (present before after : List Constraint) (location : Location)
  | inAssumption (before after : List Constraint) (conclusion : Constraint) (location : Location)
  | inConclusion (assumptions : List Constraint) (location : Location)

def Frame.fill : Frame → Constraint → Constraint
  | inPresent potential before after absent location, part =>
      .existential potential (before ++ part :: after) absent location
  | inAbsent potential present before after location, part =>
      .existential potential present (before ++ part :: after) location
  | inAssumption before after conclusion location, part =>
      .implication (before ++ part :: after) conclusion location
  | inConclusion assumptions location, part => .implication assumptions part location

-- All that stands around a part, from the outside in. Its length is the depth of the part.
abbrev Context := List Frame

def Context.fill (context : Context) (part : Constraint) : Constraint :=
  context.foldr Frame.fill part

theorem sameAll_refl (parts : List Constraint) : sameAll parts parts = true := by
  simp [sameAll_iff, same_refl]

theorem sameAll_middle (before after : List Constraint) (c d : Constraint) :
    sameAll (before ++ c :: after) (before ++ d :: after) = c.same d := by
  induction before with
  | nil => simp [sameAll, sameAll_refl]
  | cons first rest ih => simpa [sameAll, same_refl] using ih

theorem Frame.same_fill (frame : Frame) (c d : Constraint) :
    (frame.fill c).same (frame.fill d) = c.same d := by
  cases frame with
  | inPresent potential before after absent location =>
      simp [fill, same, sameAll_middle, sameAll_refl]
  | inAbsent potential present before after location =>
      simp [fill, same, sameAll_middle, sameAll_refl]
  | inAssumption before after conclusion location =>
      simp [fill, same, sameAll_middle, same_refl]
  | inConclusion assumptions location => simp [fill, same, sameAll_refl]

-- Whether two constraints are the same is decided by the part in which they differ.
theorem Context.same_fill (context : Context) (c d : Constraint) :
    (context.fill c).same (context.fill d) = c.same d := by
  induction context with
  | nil => rfl
  | cons frame rest ih => exact (frame.same_fill _ _).trans ih

def moved (location : Location) : Constraint → Constraint
  | alwaysTrue => alwaysTrue
  | alwaysFalse => alwaysFalse
  | relation kind first second _ => relation kind first second location
  | function table left right result _ => function table left right result location
  | preference subject goal q weight _ => preference subject goal q weight location
  | existential potential present absent _ => existential potential present absent location
  | implication assumptions conclusion _ => implication assumptions conclusion location

-- The changes to a constraint itself, and not to its parts, that do not count. The qualifier of a
-- preference is that of its goal.
inductive Touch : Constraint → Constraint → Prop
  | moved (c : Constraint) (location : Location) : Touch c (c.moved location)
  | turned (kind : Relation) (first second : SlotId) (location : Location) (h : kind ≠ .subtype) :
      Touch (.relation kind first second location) (.relation kind second first location)
  | reweighted (subject goal : SlotId) (q q' : Qualifier) (weight weight' : Nat)
      (location : Location) :
      Touch (.preference subject goal q weight location)
        (.preference subject goal q' weight' location)

def Edit (c d : Constraint) : Prop :=
  ∃ (context : Context) (part part' : Constraint), Touch part part' ∧
    context.fill part = c ∧ context.fill part' = d

abbrev Edits : Constraint → Constraint → Prop :=
  Relation.ReflTransGen Edit

theorem same_moved (c : Constraint) (location : Location) : c.same (c.moved location) = true := by
  cases c <;> simp [moved, same, sameAll_refl, same_refl]

theorem Touch.same {c d : Constraint} (h : Touch c d) : c.same d = true := by
  cases h with
  | moved _ location => exact same_moved c location
  | turned kind first second location hkind =>
      simp [Constraint.same, kind.eq_subtype_or_isSymmetric.resolve_left hkind]
  | reweighted subject goal q q' weight weight' location => simp [Constraint.same]

theorem Edit.same {c d : Constraint} (h : Edit c d) : c.same d = true := by
  obtain ⟨context, part, part', htouch, rfl, rfl⟩ := h
  rw [context.same_fill]
  exact htouch.same

theorem Edits.same {c d : Constraint} (h : Edits c d) : c.same d = true := by
  induction h with
  | refl => exact same_refl c
  | tail _ hedit ih => exact same_trans ih hedit.same

theorem Touch.edits {c d : Constraint} (h : Touch c d) : Edits c d :=
  .single ⟨[], c, d, h, rfl, rfl⟩

-- What is done to a part is done to the whole, one frame deeper.
theorem Edits.fill (frame : Frame) {c d : Constraint} (h : Edits c d) :
    Edits (frame.fill c) (frame.fill d) := by
  refine Relation.ReflTransGen.lift frame.fill (fun c d hedit => ?_) _ _ h
  obtain ⟨context, part, part', htouch, rfl, rfl⟩ := hedit
  exact ⟨frame :: context, part, part', htouch, rfl, rfl⟩

-- The parts are edited from the first to the last, with the edited ones before.
theorem edits_parts (build : List Constraint → Constraint)
    (hbuild : ∀ before after, ∃ frame : Frame, ∀ part,
      frame.fill part = build (before ++ part :: after))
    {parts others : List Constraint} (h : List.Forall₂ Edits parts others) :
    Edits (build parts) (build others) := by
  have hfrom : ∀ before, Edits (build (before ++ parts)) (build (before ++ others)) := by
    induction h with
    | nil => exact fun _ => .refl
    | @cons c d parts others hfirst _ ih =>
        intro before
        obtain ⟨frame, hframe⟩ := hbuild before parts
        have hhead := hfirst.fill frame
        rw [hframe, hframe] at hhead
        refine hhead.trans ?_
        simpa using ih (before ++ [d])
  exact hfrom []

-- Each case of sameness is spelt out as edits: a turned pair, a changed weight, parts edited one
-- after the other, and last the location.
theorem edits_of_same {c d : Constraint} (h : c.same d = true) : Edits c d := by
  refine same_induction (motive := Edits) .refl .refl ?_ ?_ ?_ ?_ ?_ ?_ h
  · intro kind first second location location'
    exact (Touch.moved (.relation kind first second location) location').edits
  · intro kind first second location location' hsymmetric
    have hkind : kind ≠ .subtype := by
      rintro rfl
      cases hsymmetric
    have hturned := (Touch.turned kind first second location hkind).edits
    exact hturned.trans (Touch.moved (.relation kind second first location) location').edits
  · intro table left right result location location'
    exact (Touch.moved (.function table left right result location) location').edits
  · intro subject goal q q' weight weight' location location'
    have hweight := (Touch.reweighted subject goal q q' weight weight' location).edits
    exact hweight.trans (Touch.moved (.preference subject goal q' weight' location) location').edits
  · intro potential present present' absent absent' location location' hpresent habsent
    have hfirst : Edits (.existential potential present absent location)
        (.existential potential present' absent location) :=
      edits_parts (fun parts => .existential potential parts absent location)
        (fun before after => ⟨.inPresent potential before after absent location, fun _ => rfl⟩)
        hpresent
    have hsecond : Edits (.existential potential present' absent location)
        (.existential potential present' absent' location) :=
      edits_parts (fun parts => .existential potential present' parts location)
        (fun before after => ⟨.inAbsent potential present' before after location, fun _ => rfl⟩)
        habsent
    refine (hfirst.trans hsecond).trans ?_
    exact (Touch.moved (.existential potential present' absent' location) location').edits
  · intro assumptions assumptions' conclusion conclusion' location location' hassumptions
      hconclusion
    have hfirst : Edits (.implication assumptions conclusion location)
        (.implication assumptions' conclusion location) :=
      edits_parts (fun parts => .implication parts conclusion location)
        (fun before after => ⟨.inAssumption before after conclusion location, fun _ => rfl⟩)
        hassumptions
    have hsecond := hconclusion.fill (.inConclusion assumptions' location)
    refine (hfirst.trans hsecond).trans ?_
    exact (Touch.moved (.implication assumptions' conclusion' location) location').edits

theorem same_equivalence : Equivalence fun c d : Constraint => c.same d = true :=
  ⟨same_refl, same_symm, same_trans⟩

-- Two constraints are the same exactly if locations, weights and the order of the operands of
-- symmetric relations are all that tells them apart, at whatever depth. Then they have one digest.
-- The operands of subtyping and of a table function have their places at every depth.
theorem same_exact :
    Equivalence (fun c d : Constraint => c.same d = true) ∧
      (∀ c d : Constraint, c.same d = true → c.digest = d.digest) ∧
      (∀ c d : Constraint, c.same d = true ↔ Edits c d) ∧
      ∀ (context : Context) (first second : SlotId) (location location' : Location),
        first ≠ second →
        (context.fill (.relation .subtype first second location)).same
            (context.fill (.relation .subtype second first location')) = false ∧
          ∀ (table : TableFunction) (result : SlotId),
            (context.fill (.function table first second result location)).same
              (context.fill (.function table second first result location')) = false := by
  refine ⟨same_equivalence, fun c d => digest_eq_of_same,
    fun c d => ⟨edits_of_same, Edits.same⟩, ?_⟩
  intro context first second location location' hne
  refine ⟨?_, fun table result => ?_⟩
  · simp [Context.same_fill, same, hne, Relation.isSymmetric]
  · simp [Context.same_fill, same, hne]

section Sample

open Registry

def sinkContext : Context :=
  [.inConclusion [.relation .equality sourceSlot taintedSlot .missing] .missing,
    .inPresent sinkSlot [] [] [] (.code "io" 2 1 "")]

theorem sinkContext_same_exact :
    (sinkContext.fill (.relation .comparable sourceSlot sinkSlot .missing)).same
        (sinkContext.fill (.relation .comparable sinkSlot sourceSlot (.code "io" 3 1 ""))) = true ∧
      (sinkContext.fill (.relation .comparable sourceSlot sinkSlot .missing)).digest =
        (sinkContext.fill (.relation .comparable sinkSlot sourceSlot (.code "io" 3 1 ""))).digest ∧
      Edits (sinkContext.fill (.relation .comparable sourceSlot sinkSlot .missing))
        (sinkContext.fill (.relation .comparable sinkSlot sourceSlot (.code "io" 3 1 ""))) ∧
      sourceSlot ≠ sinkSlot ∧
      (sinkContext.fill (.relation .subtype sourceSlot sinkSlot .missing)).same
        (sinkContext.fill (.relation .subtype sinkSlot sourceSlot .missing)) = false ∧
      (sinkContext.fill (.function .adapt sourceSlot sinkSlot sinkSlot .missing)).same
        (sinkContext.fill (.function .adapt sinkSlot sourceSlot sinkSlot .missing)) = false := by
  have hsame : (sinkContext.fill (.relation .comparable sourceSlot sinkSlot .missing)).same
      (sinkContext.fill (.relation .comparable sinkSlot sourceSlot (.code "io" 3 1 ""))) =
        true := by
    decide
  have hne : sourceSlot ≠ sinkSlot := by decide
  obtain ⟨-, hdigest, hedits, hplaces⟩ := same_exact
  obtain ⟨hsubtype, hfunction⟩ := hplaces sinkContext sourceSlot sinkSlot .missing .missing hne
  exact ⟨hsame, hdigest _ _ hsame, (hedits _ _).mp hsame, hne, hsubtype,
    hfunction .adapt sinkSlot⟩

end Sample

end Qualify.Constraint
