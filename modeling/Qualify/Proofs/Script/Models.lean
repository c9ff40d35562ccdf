import Mathlib.Algebra.GroupWithZero.Nat
import Mathlib.Data.Set.Function
import Qualify.Proofs.Script.Conflict

namespace Qualify

theorem Constraint.Encodable.exists_term {registry : Registry} {c : Constraint}
    (h : c.Encodable registry) (hsoft : c.isSoft = false) : ∃ t, c.term registry = .ok t := by
  have hclauses := h.idealClauses_eq hsoft (Numbering.ofRegistry registry)
  have houtcome := outcome_term registry (Numbering.ofRegistry registry) c
  rcases Except.outcome_eq_cases houtcome with ⟨e, -, herror⟩ | ⟨t, -, ht, -⟩
  · cases hclauses.symm.trans herror
  · exact ⟨t, ht⟩

namespace Script

theorem mem_insertId {id p : SlotId} {ids : List SlotId} :
    p ∈ insertId id ids ↔ p = id ∨ p ∈ ids := by
  induction ids with
  | nil => simp [insertId]
  | cons other rest ih =>
      rw [insertId]
      split
      · rename_i heq
        simp [heq]
      · split
        · simp
        · rw [List.mem_cons, ih, List.mem_cons]
          exact or_left_comm

theorem mem_existsSlots {constraints : List Constraint} {p : SlotId} :
    p ∈ existsSlots constraints ↔ p ∈ Constraint.potentialsOfAll constraints := by
  have hfold : ∀ potentials ids : List SlotId,
      p ∈ potentials.foldl (fun ids id => insertId id ids) ids ↔ p ∈ ids ∨ p ∈ potentials := by
    intro potentials
    induction potentials with
    | nil => simp
    | cons id rest ih =>
        intro ids
        rw [List.foldl_cons, ih, mem_insertId, List.mem_cons, or_comm (a := p = id), or_assoc]
  rw [existsSlots, hfold]
  exact or_iff_right List.not_mem_nil

-- The assertions say what the terms of the hard constraints say, also where one is left out.
theorem eval_hardFrom {registry : Registry} {start : Nat} {constraints : List Constraint}
    {hard : List Assertion} (h : hardFrom registry start constraints = .ok hard)
    (position : SlotId → Int) (present : SlotId → Bool) :
    (∀ assertion ∈ hard, assertion.term.eval position present = true) ↔
      ∀ c ∈ constraints, c.isSoft = false → ∀ t, c.term registry = .ok t →
        t.eval position present = true := by
  induction constraints generalizing start hard with
  | nil =>
      cases h
      simp
  | cons c rest ih =>
      rw [List.forall_mem_cons]
      rw [hardFrom] at h
      split at h
      · rename_i hsoft
        rw [ih h]
        refine (and_iff_right fun hhard => ?_).symm
        cases hsoft.symm.trans hhard
      · rename_i hsoft
        obtain ⟨t, ht, h⟩ := Except.bind_eq_ok.mp h
        have hc : (c.isSoft = false → ∀ other, c.term registry = .ok other →
            other.eval position present = true) ↔ t.simplify.eval position present = true := by
          rw [Term.eval_simplify]
          simp [hsoft, ht]
        rw [hc]
        split at h
        · rename_i htrue
          rw [ih h, htrue]
          exact (and_iff_right rfl).symm
        · cases h
        · obtain ⟨others, hothers, h⟩ := Except.bind_eq_ok.mp h
          cases h
          rw [List.forall_mem_cons, ih hothers]

@[ext] structure Model (slots potentials : List SlotId) where
  position : {id // id ∈ slots} → Int
  present : {id // id ∈ potentials} → Bool

namespace Model

variable {slots potentials : List SlotId}

def positionOf (model : Model slots potentials) (id : SlotId) : Int :=
  if h : id ∈ slots then model.position ⟨id, h⟩ else 0

def presentOf (model : Model slots potentials) (id : SlotId) : Bool :=
  if h : id ∈ potentials then model.present ⟨id, h⟩ else false

def Holds (model : Model slots potentials) (terms : List Term) : Prop :=
  ∀ term ∈ terms, term.eval model.positionOf model.presentOf = true

def gain (model : Model slots potentials) (soft : List (Term × Nat)) : Nat :=
  (soft.map fun entry =>
    if entry.1.eval model.positionOf model.presentOf then entry.2 else 0).sum

def interpretation (model : Model slots potentials) : Interpretation where
  choice id := (model.positionOf id).toNat
  present := model.presentOf

end Model

def modelOf (slots potentials : List SlotId) (interpretation : Interpretation) :
    Model slots potentials where
  position id := interpretation.choice id
  present id := interpretation.present id

section Models

variable {slots potentials : List SlotId}

theorem Model.ext_of {model other : Model slots potentials}
    (hposition : ∀ id ∈ slots, model.positionOf id = other.positionOf id)
    (hpresent : ∀ p ∈ potentials, model.presentOf p = other.presentOf p) : model = other := by
  apply Model.ext
  · funext ⟨id, hid⟩
    simpa only [positionOf, dif_pos hid] using hposition id hid
  · funext ⟨p, hp⟩
    simpa only [presentOf, dif_pos hp] using hpresent p hp

theorem positionOf_modelOf (interpretation : Interpretation) {id : SlotId} (hid : id ∈ slots) :
    (modelOf slots potentials interpretation).positionOf id = interpretation.choice id :=
  dif_pos hid

theorem presentOf_modelOf (interpretation : Interpretation) {p : SlotId} (hp : p ∈ potentials) :
    (modelOf slots potentials interpretation).presentOf p = interpretation.present p :=
  dif_pos hp

-- Symbols that are not declared have the first position.
theorem Model.position_interpretation {model : Model slots potentials}
    (h : ∀ id ∈ slots, 0 ≤ model.positionOf id) :
    model.interpretation.position = model.positionOf := by
  funext id
  refine Int.toNat_of_nonneg ?_
  by_cases hid : id ∈ slots
  · exact h id hid
  · rw [positionOf, dif_neg hid]

end Models

section Holds

variable {registry : Registry} {potentials : List SlotId}
  {model : Model registry.variableSlots potentials}

theorem holds_ranges_iff :
    model.Holds ((ranges registry).map (·.term)) ↔
      (∀ id ∈ registry.variableSlots, 0 ≤ model.positionOf id) ∧
        model.interpretation.InRange registry := by
  rw [Model.Holds, List.forall_mem_map, ranges, List.forall_mem_map, Interpretation.InRange,
    ← forall₂_and]
  refine forall₂_congr fun id _ => ?_
  rw [Term.eval, Bool.and_eq_true, decide_eq_true_eq, decide_eq_true_eq]
  exact and_congr_right fun hnonneg => (Int.toNat_lt hnonneg).symm

variable (hwf : registry.WellFormed) {constraints : List Constraint}
  (hencodable : ∀ c ∈ constraints, c.Encodable registry) {hard : List Assertion}
  (h : hardFrom registry 0 constraints = .ok hard)
include hwf hencodable h

theorem holds_hardFrom_iff (hnonneg : ∀ id ∈ registry.variableSlots, 0 ≤ model.positionOf id)
    (hrange : model.interpretation.InRange registry) :
    model.Holds (hard.map (·.term)) ↔
      ∀ c ∈ constraints, model.interpretation.eval registry c = true := by
  rw [Model.Holds, List.forall_mem_map, eval_hardFrom h]
  refine forall₂_congr fun c hc => ?_
  cases hsoft : c.isSoft with
  | true =>
      obtain ⟨_, _, _, _, _, rfl⟩ := Constraint.eq_preference_of_isSoft hsoft
      exact iff_of_true (by simp) rfl
  | false =>
      obtain ⟨t, ht⟩ := (hencodable c hc).exists_term hsoft
      have heval := Constraint.eval_term hwf hrange c ht
      rw [Model.position_interpretation hnonneg] at heval
      rw [← heval]
      simp [ht, Model.interpretation]

-- The models of the hard assertions are the interpretations that meet the constraints.
theorem holds_iff :
    model.Holds ((ranges registry ++ hard).map (·.term)) ↔
      (∀ id ∈ registry.variableSlots, 0 ≤ model.positionOf id) ∧
        model.interpretation.Meets registry constraints := by
  have happend : model.Holds ((ranges registry ++ hard).map (·.term)) ↔
      model.Holds ((ranges registry).map (·.term)) ∧ model.Holds (hard.map (·.term)) := by
    rw [List.map_append]
    exact List.forall_mem_append
  rw [happend, holds_ranges_iff]
  constructor
  · rintro ⟨⟨hnonneg, hrange⟩, hhard⟩
    exact ⟨hnonneg, hrange, (holds_hardFrom_iff hwf hencodable h hnonneg hrange).mp hhard⟩
  · rintro ⟨hnonneg, hrange, hholds⟩
    exact ⟨⟨hnonneg, hrange⟩, (holds_hardFrom_iff hwf hencodable h hnonneg hrange).mpr hholds⟩

end Holds

end Script

namespace Numbering

def inUse (numbering : Numbering) (registry : Registry) : Set Nat :=
  {n | (∃ id ∈ registry.variableSlots, ∃ q < registry.lattice.size,
      numbering.literal id q = (n : Int)) ∨
    ∃ p ∈ numbering.potentials, numbering.presence p = (n : Int)}

section InUse

variable {numbering : Numbering} {registry : Registry} {interpretation : Interpretation}
  {valuation other : Valuation}

theorem Fits.literal_inUse (hfits : numbering.Fits registry) (hwf : registry.WellFormed)
    {id : SlotId} (hid : id ∈ registry.variableSlots) {q : Qualifier}
    (hq : q < registry.lattice.size) :
    ∃ n ∈ numbering.inUse registry, 0 < n ∧ numbering.literal id q = (n : Int) := by
  have hliteral := hfits.literal_eq (hwf.index_lt hid) hq
  exact ⟨_, .inl ⟨id, hid, q, hq, hliteral⟩, Nat.succ_pos _, hliteral⟩

theorem Fits.presence_inUse (hfits : numbering.Fits registry) {p : SlotId}
    (hp : p ∈ numbering.potentials) :
    ∃ n ∈ numbering.inUse registry, 0 < n ∧ numbering.presence p = (n : Int) := by
  have hpresence := hfits.presence_eq hp
  exact ⟨_, .inr ⟨p, hp, hpresence⟩, Nat.succ_pos _, hpresence⟩

-- Two valuations that say the same as an interpretation differ in unused variables only.
theorem Reads.domRestrict_eq (hfits : numbering.Fits registry) (hwf : registry.WellFormed)
    (h : numbering.Reads registry interpretation valuation)
    (h' : numbering.Reads registry interpretation other) :
    (numbering.inUse registry).domRestrict valuation =
      (numbering.inUse registry).domRestrict other := by
  have hbounded := hfits.bounded hwf
  have hvalue : ∀ {n : Nat} {l : Int}, l ≠ 0 → l = n →
      Literal.holds valuation l = Literal.holds other l → valuation n = other n := by
    rintro n _ hzero rfl hsame
    have hpos : 0 < n := by omega
    rwa [Literal.holds_natCast _ hpos, Literal.holds_natCast _ hpos] at hsame
  funext ⟨n, hn⟩
  rcases hn with ⟨id, hid, q, hq, heq⟩ | ⟨p, hp, heq⟩
  · exact hvalue (Literal.ne_zero_of_isWithin (hbounded.row id hid q hq)) heq
      ((h.literal_holds id hid q hq).trans (h'.literal_holds id hid q hq).symm)
  · exact hvalue (Literal.ne_zero_of_isWithin (hbounded.presence p hp)) heq
      ((h.presence_holds p hp).trans (h'.presence_holds p hp).symm)

theorem Reads.of_domRestrict_eq (hfits : numbering.Fits registry) (hwf : registry.WellFormed)
    (h : numbering.Reads registry interpretation valuation)
    (hsame : (numbering.inUse registry).domRestrict other =
      (numbering.inUse registry).domRestrict valuation) :
    numbering.Reads registry interpretation other where
  literal_holds id hid q hq := by
    obtain ⟨n, hn, hpos, heq⟩ := hfits.literal_inUse hwf hid hq
    have hvalue : other n = valuation n := congrFun hsame ⟨n, hn⟩
    rw [← h.literal_holds id hid q hq, heq, Literal.holds_natCast _ hpos,
      Literal.holds_natCast _ hpos, hvalue]
  presence_holds p hp := by
    obtain ⟨n, hn, hpos, heq⟩ := hfits.presence_inUse hp
    have hvalue : other n = valuation n := congrFun hsame ⟨n, hn⟩
    rw [← h.presence_holds p hp, heq, Literal.holds_natCast _ hpos,
      Literal.holds_natCast _ hpos, hvalue]

theorem Reads.choice_eq {interpretation' : Interpretation}
    (h : numbering.Reads registry interpretation valuation)
    (h' : numbering.Reads registry interpretation' valuation)
    (hrange : interpretation.InRange registry) {id : SlotId} (hid : id ∈ registry.variableSlots) :
    interpretation.choice id = interpretation'.choice id := by
  have hsame := h'.literal_holds id hid (interpretation.choice id) (hrange id hid)
  rw [h.literal_holds id hid _ (hrange id hid), beq_self_eq_true] at hsame
  exact (eq_of_beq hsame.symm).symm

end InUse

end Numbering

namespace Cnf

def modelsInUse (cnf : Cnf) (registry : Registry) (numbering : Numbering) :
    Set (numbering.inUse registry → Bool) :=
  (numbering.inUse registry).domRestrict '' {valuation | Satisfies valuation (cnf.hard.map (·.1))}

def gain (cnf : Cnf) (valuation : Valuation) : Nat :=
  (cnf.soft.map fun entry => if Clause.holds valuation entry.1 then entry.2 else 0).sum

theorem mem_potentials_numberingOf (registry : Registry) {constraints : List Constraint}
    {p : SlotId} :
    p ∈ (numberingOf registry constraints).potentials ↔ p ∈ Script.existsSlots constraints := by
  rw [numberingOf, Numbering.mem_useAll, Script.mem_existsSlots]
  exact or_iff_right List.not_mem_nil

end Cnf

namespace Script

-- The values of the boolean variables for a model: a variable of a slot says that the slot has the
-- position of a qualifier, and a variable of a potential slot that it is present.
def Model.oneHot {slots potentials : List SlotId} (model : Model slots potentials)
    (registry : Registry) (numbering : Numbering) : numbering.inUse registry → Bool :=
  (numbering.inUse registry).domRestrict (numbering.assignment registry model.interpretation)

theorem choice_modelOf {slots : List SlotId} (potentials : List SlotId)
    (interpretation : Interpretation) {id : SlotId} (hid : id ∈ slots) :
    (modelOf slots potentials interpretation).interpretation.choice id =
      interpretation.choice id :=
  (congrArg Int.toNat (positionOf_modelOf interpretation hid)).trans (Int.toNat_natCast _)

theorem inRange_modelOf {registry : Registry} (potentials : List SlotId)
    {interpretation : Interpretation} (h : interpretation.InRange registry) :
    (modelOf registry.variableSlots potentials interpretation).interpretation.InRange registry := by
  intro id hid
  rw [choice_modelOf potentials interpretation hid]
  exact h id hid

-- Nothing is lost by forgetting the symbols that are not declared.
theorem reads_modelOf {registry : Registry} {numbering : Numbering} (potentials : List SlotId)
    {interpretation : Interpretation} {valuation : Valuation}
    (h : numbering.Reads registry interpretation valuation)
    (hpotentials : ∀ p ∈ numbering.potentials, p ∈ potentials) :
    numbering.Reads registry
      (modelOf registry.variableSlots potentials interpretation).interpretation valuation where
  literal_holds id hid q hq := by
    rw [choice_modelOf potentials interpretation hid]
    exact h.literal_holds id hid q hq
  presence_holds p hp := by
    rw [h.presence_holds p hp]
    exact (presentOf_modelOf interpretation (hpotentials p hp)).symm

section Bijection

variable {registry : Registry} (hwf : registry.WellFormed) {constraints : List Constraint}
  (hencodable : ∀ c ∈ constraints, c.Encodable registry)
  (hfits : (Cnf.numberingOf registry constraints).Fits registry) {hard : List Assertion}
  (h : hardFrom registry 0 constraints = .ok hard)

include hwf hencodable hfits h

theorem mapsTo_oneHot :
    Set.MapsTo (fun model : Model registry.variableSlots (existsSlots constraints) =>
        model.oneHot registry (Cnf.numberingOf registry constraints))
      {model | model.Holds ((ranges registry ++ hard).map (·.term))}
      ((Cnf.encoding registry constraints).modelsInUse registry
        (Cnf.numberingOf registry constraints)) := by
  intro model hmodel
  have hmeets := ((holds_iff hwf hencodable h).mp hmodel).2
  have hcnf := Cnf.encoding_represents hwf hencodable hfits
  exact ⟨_, hcnf.satisfies_assignment hfits hwf hmeets, rfl⟩

-- A model is read back from its assignment: the positions from the rows, the presences behind
-- them.
theorem injOn_oneHot :
    Set.InjOn (fun model : Model registry.variableSlots (existsSlots constraints) =>
        model.oneHot registry (Cnf.numberingOf registry constraints))
      {model | model.Holds ((ranges registry ++ hard).map (·.term))} := by
  intro model hmodel other hother hsame
  obtain ⟨hnonneg, hmeets⟩ := (holds_iff hwf hencodable h).mp hmodel
  obtain ⟨hnonneg', -⟩ := (holds_iff hwf hencodable h).mp hother
  have hreads' := Numbering.reads_assignment hfits hwf other.interpretation
  have hreads := (Numbering.reads_assignment hfits hwf model.interpretation).of_domRestrict_eq
    hfits hwf hsame.symm
  refine Model.ext_of (fun id hid => ?_) fun p hp => ?_
  · have hchoice := hreads.choice_eq hreads' hmeets.inRange hid
    rw [← Int.toNat_of_nonneg (hnonneg id hid), ← Int.toNat_of_nonneg (hnonneg' id hid)]
    exact congrArg Int.ofNat hchoice
  · have hmem := (Cnf.mem_potentials_numberingOf registry).mpr hp
    exact (hreads.presence_holds p hmem).symm.trans (hreads'.presence_holds p hmem)

-- A satisfying valuation reads some interpretation, and the model of that one has the same
-- assignment on the variables in use.
theorem surjOn_oneHot :
    Set.SurjOn (fun model : Model registry.variableSlots (existsSlots constraints) =>
        model.oneHot registry (Cnf.numberingOf registry constraints))
      {model | model.Holds ((ranges registry ++ hard).map (·.term))}
      ((Cnf.encoding registry constraints).modelsInUse registry
        (Cnf.numberingOf registry constraints)) := by
  rintro _ ⟨valuation, hvaluation, rfl⟩
  obtain ⟨interpretation, hrange, hreads, -⟩ :=
    ((Cnf.encoding_represents hwf hencodable hfits).satisfies_iff valuation).mp hvaluation
  have hreads := reads_modelOf (existsSlots constraints) hreads fun p hp =>
    (Cnf.mem_potentials_numberingOf registry).mp hp
  have hrange := inRange_modelOf (existsSlots constraints) hrange
  refine ⟨modelOf registry.variableSlots (existsSlots constraints) interpretation,
    (holds_iff hwf hencodable h).mpr ⟨fun id hid => ?_, hrange, ?_⟩, ?_⟩
  · rw [positionOf_modelOf interpretation hid]
    exact Int.natCast_nonneg _
  · have hclauses : Satisfies valuation _ := hvaluation
    rw [Cnf.map_fst_encoding, satisfies_append] at hclauses
    exact (Cnf.satisfies_traced_iff_eval hwf hencodable hfits hrange hreads).mp hclauses.1
  · exact (Numbering.reads_assignment hfits hwf _).domRestrict_eq hfits hwf hreads

end Bijection

-- A soft assertion holds exactly when the soft clause of the same preference does.
theorem gain_eq {registry : Registry} (hwf : registry.WellFormed) {constraints : List Constraint}
    (hbuilt : ∀ c ∈ constraints, Constraint.Built registry c) {potentials : List SlotId}
    {model : Model registry.variableSlots potentials}
    (hnonneg : ∀ id ∈ registry.variableSlots, 0 ≤ model.positionOf id) {numbering : Numbering}
    {valuation : Valuation} (hreads : numbering.Reads registry model.interpretation valuation)
    {cnf : Cnf} (hsoft : cnf.soft = constraints.filterMap (Constraint.softClause? numbering)) :
    model.gain (preferences constraints) = cnf.gain valuation := by
  rw [Model.gain, preferences, Cnf.gain, hsoft, List.map_filterMap, List.map_filterMap]
  refine congrArg List.sum (List.filterMap_congr fun c hc => ?_)
  cases c with
  | preference subject goal q weight location =>
      obtain ⟨_, _, _, _, _, heq, hsubject, hq⟩ := (hbuilt _ hc).soft_cases hwf rfl
      cases heq
      have hposition := congrFun (Model.position_interpretation hnonneg).symm subject
      have hterm : Term.eval model.positionOf model.presentOf (.is subject q) =
          (model.interpretation.choice subject == q) := Term.eval_is hposition q
      have hclause : Clause.holds valuation [numbering.literal subject q] =
          (model.interpretation.choice subject == q) := by
        simp [hreads.literal_holds subject hsubject q hq]
      simp only [Constraint.softClause?, Option.map_some, hterm, hclause]
  | _ => rfl

-- What solvers read in the text of a script: the symbols it declares, and the terms it asserts and
-- prefers.
structure Says (script : Script) (slots potentials : List SlotId) (hard : List Term)
    (soft : List (Term × Nat)) : Prop where
  declares : (read script.text).map (·.filterMap Sexp.declared?) =
    some (slots.map (fun id => (Term.slotSymbol id, "Int")) ++
      potentials.map fun id => (Term.existsSymbol id, "Bool"))
  asserts : hardTerms script.text = some hard
  prefers : softTerms script.text = some soft

theorem ofConstraints_says {registry : Registry} {constraints : List Constraint} {script : Script}
    (h : ofConstraints registry constraints .optimize = .ok script) :
    ∃ hard, hardFrom registry 0 constraints = .ok hard ∧
      script.Says registry.variableSlots (existsSlots constraints)
        ((ranges registry ++ hard).map (·.term)) (preferences constraints) := by
  obtain ⟨hard, hhard, h⟩ := Except.bind_eq_ok.mp h
  cases h
  have hnames : ∀ a ∈ ranges registry ++ hard, Token.isPlain (.atom a.name) = true :=
    fun a ha => (means_of_mem hhard ha).isPlain_name
  refine ⟨hard, hhard, ?_, hardTerms_lines _ _ _ _ hnames _, softTerms_lines _ _ _ _ hnames _⟩
  dsimp only
  rw [read_lines _ _ _ _ hnames _, Option.map_some, declared?_commands, declared?_declarations]

-- Clauses can break off where terms do not. Otherwise the two fail for the same reason or say the
-- same.
theorem term_agrees_clauses {registry : Registry} (hwf : registry.WellFormed)
    {numbering after : Numbering} {c : Constraint} {result : Except Inconsistency (List Clause)}
    (h : c.clauses registry numbering = (result, after)) :
    result = .error (.fault .overflow) ∨
      (∃ e, c.term registry = .error e ∧ result = .error e) ∨
      ∃ t clauses, c.term registry = .ok t ∧ result = .ok clauses ∧
        ∀ interpretation : Interpretation, interpretation.InRange registry →
          ∀ valuation, after.Mirrors registry interpretation valuation →
            (t.eval interpretation.position interpretation.present = true ↔
              Satisfies valuation clauses) := by
  obtain ⟨rfl, rfl⟩ := Prod.mk.inj h
  rcases Constraint.clausesWith_cutShort registry (numbering.useAll (c.usedPotentials registry)) c
    with hideal | hoverflow
  · rw [hideal]
    have houtcome := Constraint.outcome_term registry
      (numbering.useAll (c.usedPotentials registry)) c
    rcases Except.outcome_eq_cases houtcome with
      ⟨e, hterm, hclauses⟩ | ⟨t, clauses, hterm, hclauses⟩
    · exact .inr (.inl ⟨e, hterm, hclauses⟩)
    · refine .inr (.inr ⟨t, clauses, hterm, hclauses, ?_⟩)
      intro interpretation hrange valuation hmirrors
      rw [Constraint.eval_term hwf hrange c hterm]
      exact (Constraint.satisfies_idealClauses_of_mirrors hmirrors hwf hrange c
        (Constraint.covered_useAll numbering hclauses) hclauses).symm
  · exact .inl hoverflow

-- Where there is a term, and all variables have a number, there are clauses as long as they have
-- room.
theorem clauses_isOk_iff {registry : Registry} (hwf : registry.WellFormed)
    {numbering after : Numbering} {c : Constraint} {result : Except Inconsistency (List Clause)}
    (h : c.clauses registry numbering = (result, after)) (hfits : after.Fits registry) {t : Term}
    (hterm : c.term registry = .ok t) :
    (∃ clauses, result = .ok clauses) ↔ c.HasRoom registry after := by
  obtain ⟨rfl, rfl⟩ := Prod.mk.inj h
  have houtcome := Constraint.outcome_term registry (numbering.useAll (c.usedPotentials registry)) c
  rcases Except.outcome_eq_cases houtcome with ⟨e, herror, -⟩ | ⟨-, clauses, -, hclauses⟩
  · cases hterm.symm.trans herror
  · rw [Constraint.clausesWith_isOk_iff_hasRoom hfits hwf c
      (Constraint.covered_useAll numbering hclauses)]
    exact and_iff_right ((Constraint.idealClauses_isOk_iff c).mp ⟨clauses, hclauses⟩)

-- Terms and clauses fail for the same reason or say the same, unless the clauses break off, and so
-- the models of what a script asserts and of the clauses correspond to each other one to one and
-- gain as much. `earlier` are the potential slots of the constraints that were encoded before.
theorem encodings_agree {registry : Registry} (hreachable : registry.Reachable) :
    (∀ (earlier : List SlotId) (c : Constraint) (result : Except Inconsistency (List Clause))
        (after : Numbering),
      c.clauses registry ((Numbering.ofRegistry registry).useAll earlier) = (result, after) →
      (result = .error (.fault .overflow) ∨
        (∃ e, c.term registry = .error e ∧ result = .error e) ∨
        ∃ t clauses, c.term registry = .ok t ∧ result = .ok clauses ∧
          ∀ interpretation : Interpretation, interpretation.InRange registry →
            ∀ valuation, after.Mirrors registry interpretation valuation →
              (t.eval interpretation.position interpretation.present = true ↔
                Satisfies valuation clauses)) ∧
      (registry.slots.size * registry.lattice.size + after.potentials.length < 0x80000000 →
        (∀ t, c.term registry = .ok t →
          ((∃ clauses, result = .ok clauses) ↔ c.HasRoom registry after)) ∧
        ∀ interpretation : Interpretation,
          after.Mirrors registry interpretation (after.assignment registry interpretation))) ∧
    ∀ (constraints : List Constraint) (script : Script),
      (∀ c ∈ constraints, Constraint.Built registry c) →
      ofConstraints registry constraints .optimize = .ok script →
      registry.slots.size * registry.lattice.size +
        (Constraint.potentialsOfAll constraints).dedup.length < 0x80000000 →
      Cnf.HasRoom registry constraints →
      ∃ hard soft cnf,
        script.Says registry.variableSlots (existsSlots constraints) hard soft ∧
        Cnf.encode registry constraints = .ok cnf ∧
        Set.BijOn (fun model : Model registry.variableSlots (existsSlots constraints) =>
            model.oneHot registry (Cnf.numberingOf registry constraints))
          {model | model.Holds hard}
          (cnf.modelsInUse registry (Cnf.numberingOf registry constraints)) ∧
        ∀ (model : Model registry.variableSlots (existsSlots constraints)) (valuation : Valuation),
          model.Holds hard →
          ((Cnf.numberingOf registry constraints).inUse registry).domRestrict valuation =
            model.oneHot registry (Cnf.numberingOf registry constraints) →
          model.gain soft = cnf.gain valuation := by
  have hwf := hreachable.wellFormed
  refine ⟨fun earlier c result after hclauses =>
    ⟨term_agrees_clauses hwf hclauses, fun hcount => ?_⟩, ?_⟩
  · have hfits : after.Fits registry := by
      obtain ⟨-, rfl⟩ := Prod.mk.inj hclauses
      rw [← Numbering.useAll_append] at hcount ⊢
      exact Numbering.fits_useAll_ofRegistry hcount
    refine ⟨fun t => clauses_isOk_iff hwf hclauses hfits, fun interpretation => ?_⟩
    exact (Numbering.reads_assignment hfits hwf interpretation).mirrors (hfits.bounded hwf)
  · intro constraints script hbuilt hscript hcount hroom
    have hencodable : ∀ c ∈ constraints, c.Encodable registry := fun c hc => (hbuilt c hc).succeeds
    have hfits := Cnf.numberingOf_fits hcount
    obtain ⟨hard, hhard, hsays⟩ := ofConstraints_says hscript
    refine ⟨_, _, _, hsays, Cnf.encode_of_hasRoom hwf hencodable hfits hroom,
      ⟨mapsTo_oneHot hwf hencodable hfits hhard, injOn_oneHot hwf hencodable hfits hhard,
        surjOn_oneHot hwf hencodable hfits hhard⟩, fun model valuation hmodel hsame => ?_⟩
    have hnonneg := ((holds_iff hwf hencodable hhard).mp hmodel).1
    have hreads := (Numbering.reads_assignment hfits hwf model.interpretation).of_domRestrict_eq
      hfits hwf hsame
    exact gain_eq hwf hbuilt hnonneg hreads rfl

section Sample

open Registry

def taintedFlow : Model taint.variableSlots (existsSlots Cnf.taintFlow) :=
  modelOf _ _ Cnf.tainted

theorem taintFlow_encodings_agree :
    (∃ t clauses after, Constraint.taintRule.term taint = .ok t ∧
      Constraint.taintRule.clauses taint (Numbering.ofRegistry taint) = (.ok clauses, after) ∧
      (t.eval Constraint.untainted.position Constraint.untainted.present = true ↔
        Satisfies (after.assignment taint Constraint.untainted) clauses)) ∧
    ∃ script hard soft cnf valuation, ofConstraints taint Cnf.taintFlow .optimize = .ok script ∧
      script.Says taint.variableSlots (existsSlots Cnf.taintFlow) hard soft ∧
      taintedFlow.Holds hard ∧ Cnf.encode taint Cnf.taintFlow = .ok cnf ∧
      Satisfies valuation (cnf.hard.map (·.1)) ∧ taintedFlow.gain soft = cnf.gain valuation := by
  obtain ⟨hrule, hflow⟩ := encodings_agree taint_reachable
  constructor
  · obtain ⟨t, hterm⟩ : ∃ t, Constraint.taintRule.term taint = .ok t := ⟨_, rfl⟩
    rcases htranslated : Constraint.taintRule.clauses taint (Numbering.ofRegistry taint) with
      ⟨result, after⟩
    have hafter : after = _ := (congrArg Prod.snd htranslated).symm
    obtain ⟨hagree, hfits⟩ := hrule [] Constraint.taintRule result after htranslated
    rw [hafter] at hfits
    obtain ⟨clauses, hclauses⟩ := ((hfits (by decide)).1 t hterm).mpr (by decide)
    rcases hagree with hoverflow | ⟨e, herror, -⟩ | ⟨_, _, hsame, hsame', hmeans⟩
    · cases hclauses.symm.trans hoverflow
    · cases hterm.symm.trans herror
    · cases hterm.symm.trans hsame
      refine ⟨t, _, after, hterm, congrArg (·, after) hsame', hmeans _ (by decide) _ ?_⟩
      rw [hafter]
      exact (hfits (by decide)).2 _
  · obtain ⟨script, hscript⟩ :
        ∃ script, ofConstraints taint Cnf.taintFlow .optimize = .ok script := ⟨_, rfl⟩
    obtain ⟨hard, soft, cnf, hsays, hencode, hbij, hgain⟩ :=
      hflow Cnf.taintFlow script Cnf.taintFlow_built hscript (by decide) (by decide)
    have hencodable : ∀ c ∈ Cnf.taintFlow, c.Encodable taint := by decide
    have hholds : taintedFlow.Holds hard := by
      obtain ⟨assertions, hhard, hsame⟩ := ofConstraints_says hscript
      cases hsays.asserts.symm.trans hsame.asserts
      exact (holds_iff taint_reachable.wellFormed hencodable hhard).mpr
        ⟨by decide, by decide, by decide⟩
    obtain ⟨valuation, hvaluation, hsame⟩ := hbij.mapsTo hholds
    exact ⟨script, hard, soft, cnf, valuation, hscript, hsays, hholds, hencode, hvaluation,
      hgain taintedFlow valuation hholds hsame⟩

-- So many assumptions that the choices of a literal from each clause cannot be counted in 64 bits,
-- though there is none because the last assumption is an empty clause.
def crowd : List Constraint :=
  List.replicate 32 (.relation .inequality sourceSlot sinkSlot .missing) ++
    [.implication [.relation .comparable sourceSlot sinkSlot .missing] .alwaysFalse .missing]

def crowdedRule : Constraint :=
  .implication crowd (.relation .equality sourceSlot taintedSlot .missing) .missing

theorem crowdedRule_built : Constraint.Built taint crowdedRule := by
  have hrelate : ∀ kind first second c,
      Constraint.relate taint kind first second .missing = .ok c → Constraint.Built taint c :=
    fun _ _ _ _ h => .relate .refl h
  have hfirst := hrelate .inequality sourceSlot sinkSlot _ rfl
  have hcomparable := hrelate .comparable sourceSlot sinkSlot _ rfl
  have hconclusion := hrelate .equality sourceSlot taintedSlot _ rfl
  have hlast : Constraint.Built taint
      (.implication [.relation .comparable sourceSlot sinkSlot .missing] .alwaysFalse .missing) :=
    .imply (List.forall_mem_singleton.mpr hcomparable) .alwaysFalse rfl
  have hcrowd : ∀ c ∈ crowd, Constraint.Built taint c := by
    refine List.forall_mem_append.mpr ⟨fun c hc => ?_, List.forall_mem_singleton.mpr hlast⟩
    exact List.eq_of_mem_replicate hc ▸ hfirst
  exact .imply hcrowd hconclusion
    (rfl : Constraint.imply crowd _ .missing = .ok crowdedRule)

theorem crowdedRule_breaks_off :
    Constraint.Built taint crowdedRule ∧ (∃ t, crowdedRule.term taint = .ok t) ∧
      (crowdedRule.clauses taint (Numbering.ofRegistry taint)).1 = .error (.fault .overflow) := by
  have hwf := taint_reachable.wellFormed
  have hfits : (crowdedRule.clauses taint (Numbering.ofRegistry taint)).2.Fits taint :=
    @Numbering.fits_useAll_ofRegistry taint _ (by decide)
  have hroom : ¬crowdedRule.HasRoom taint
      (crowdedRule.clauses taint (Numbering.ofRegistry taint)).2 := by
    decide +kernel
  obtain ⟨t, hterm⟩ : ∃ t, crowdedRule.term taint = .ok t := ⟨_, rfl⟩
  refine ⟨crowdedRule_built, ⟨t, hterm⟩, ?_⟩
  rcases term_agrees_clauses hwf rfl with hoverflow | ⟨e, herror, -⟩ | ⟨-, clauses, -, hclauses, -⟩
  · exact hoverflow
  · cases hterm.symm.trans herror
  · exact absurd ((clauses_isOk_iff hwf rfl hfits hterm).mp ⟨clauses, hclauses⟩) hroom

end Sample

end Script

end Qualify
