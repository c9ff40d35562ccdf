import Qualify.Proofs.Script.Commands
import Qualify.Proofs.Script.Consistency
import Qualify.Proofs.Term.Scope

namespace Qualify

def Text.stem (word : String) : List Char :=
  word.toList.takeWhile fun c => !c.isDigit

theorem Text.stem_numbered {stem : String} (h : stem.toList.all (fun c => !c.isDigit) = true)
    (n : Nat) : Text.stem (stem ++ toString n) = stem.toList := by
  rw [Text.stem, String.toList_append, Text.toList_toString]
  exact Text.takeWhile_numbered h (Text.isNumeral_toDigits n)

def Term.isRangeOf (id : SlotId) : Term → Bool
  | range other _ => other = id
  | _ => false

theorem Term.Over.isRangeOf_eq_false {slots potentials : List SlotId} {term : Term}
    (h : term.Over slots potentials) (id : SlotId) : term.isRangeOf id = false := by
  cases h <;> rfl

namespace Script

-- The symbols that scripts are about. A slot has an integer, and a potential slot a truth value.
def IsSymbol (word sort : String) : Prop :=
  ∃ n : Nat, (word = "slot" ++ toString n ∧ sort = "Int") ∨
    (word = "exists" ++ toString n ∧ sort = "Bool")

inductive Visible (slots potentials : List SlotId) : String → Prop
  | slot {id : SlotId} (h : id ∈ slots) : Visible slots potentials (Term.slotSymbol id)
  | potential {id : SlotId} (h : id ∈ potentials) : Visible slots potentials (Term.existsSymbol id)
  | other {word : String} (h : Text.stem word ∉ ["slot".toList, "exists".toList]) :
      Visible slots potentials word

def Scoped (slots potentials : List SlotId) (sexp : Sexp) : Prop :=
  ∀ word ∈ sexp.words, Visible slots potentials word

section Visible

variable {slots potentials : List SlotId}

theorem stem_slotSymbol (id : SlotId) : Text.stem (Term.slotSymbol id) = "slot".toList :=
  Text.stem_numbered (by decide) id.number

theorem stem_existsSymbol (id : SlotId) : Text.stem (Term.existsSymbol id) = "exists".toList :=
  Text.stem_numbered (by decide) id.number

theorem slotSymbol_inj {id other : SlotId} (h : Term.slotSymbol id = Term.slotSymbol other) :
    id = other := by
  have hread := Term.ofSymbol?_slotSymbol id
  rw [h, Term.ofSymbol?_slotSymbol] at hread
  exact (Option.some.inj hread).symm

theorem existsSymbol_inj {id other : SlotId} (h : Term.existsSymbol id = Term.existsSymbol other) :
    id = other := by
  have hread := Term.ofSymbol?_existsSymbol id
  rw [h, Term.ofSymbol?_existsSymbol] at hread
  exact (Option.some.inj hread).symm

theorem slotSymbol_ne_existsSymbol (id other : SlotId) :
    Term.slotSymbol id ≠ Term.existsSymbol other := by
  intro h
  have hstem := stem_slotSymbol id
  rw [h, stem_existsSymbol] at hstem
  exact absurd hstem (by decide)

theorem Visible.slotSymbol {id : SlotId} (h : Visible slots potentials (Term.slotSymbol id)) :
    id ∈ slots := by
  generalize hword : Term.slotSymbol id = word at h
  cases h with
  | slot hmem => exact slotSymbol_inj hword ▸ hmem
  | potential _ => exact absurd hword (slotSymbol_ne_existsSymbol _ _)
  | other hstem =>
      rw [← hword, stem_slotSymbol] at hstem
      exact absurd List.mem_cons_self hstem

theorem Visible.existsSymbol {id : SlotId} (h : Visible slots potentials (Term.existsSymbol id)) :
    id ∈ potentials := by
  generalize hword : Term.existsSymbol id = word at h
  cases h with
  | slot _ => exact absurd hword.symm (slotSymbol_ne_existsSymbol _ _)
  | potential hmem => exact existsSymbol_inj hword ▸ hmem
  | other hstem =>
      rw [← hword, stem_existsSymbol] at hstem
      exact absurd (List.mem_cons_of_mem _ List.mem_cons_self) hstem

-- A visible symbol is among the declared ones, with its sort.
theorem Visible.declared {word sort : String} (h : Visible slots potentials word)
    (hsymbol : IsSymbol word sort) :
    (word, sort) ∈ (declarations slots potentials).filterMap Sexp.declared? := by
  rw [declared?_declarations, List.mem_append, List.mem_map, List.mem_map]
  obtain ⟨n, ⟨hword, rfl⟩ | ⟨hword, rfl⟩⟩ := hsymbol
  · have hstem : Text.stem word = "slot".toList := hword ▸ Text.stem_numbered (by decide) n
    cases h with
    | slot hmem => exact .inl ⟨_, hmem, rfl⟩
    | potential _ => exact absurd ((stem_existsSymbol _).symm.trans hstem) (by decide)
    | other hother => exact absurd (hstem ▸ List.mem_cons_self) hother
  · have hstem : Text.stem word = "exists".toList := hword ▸ Text.stem_numbered (by decide) n
    cases h with
    | slot _ => exact absurd ((stem_slotSymbol _).symm.trans hstem) (by decide)
    | potential hmem => exact .inr ⟨_, hmem, rfl⟩
    | other hother => exact absurd (hstem ▸ List.mem_cons_of_mem _ List.mem_cons_self) hother

theorem visible_toString (n : Nat) : Visible slots potentials (toString n) := by
  have hstem := @Text.stem_numbered "" (by decide) n
  rw [String.empty_append] at hstem
  exact .other (hstem ▸ by decide)

theorem scoped_atom {word : String} : Scoped slots potentials (.atom word) ↔
    Visible slots potentials word := by
  rw [Scoped, Sexp.words_atom, List.forall_mem_singleton]

theorem scoped_list {members : List Sexp} : Scoped slots potentials (.list members) ↔
    ∀ member ∈ members, Scoped slots potentials member := by
  rw [Scoped, Sexp.words_list, List.forall_mem_flatMap]
  rfl

-- A list that begins with a word of the language.
theorem scoped_group {head : String} (hhead : Text.stem head ∉ ["slot".toList, "exists".toList])
    {members : List Sexp} : Scoped slots potentials (.list (.atom head :: members)) ↔
      ∀ member ∈ members, Scoped slots potentials member := by
  rw [scoped_list, List.forall_mem_cons, scoped_atom]
  exact and_iff_right (.other hhead)

end Visible

section Terms

variable {slots potentials : List SlotId}

theorem scoped_slotSymbol {id : SlotId} (h : id ∈ slots) :
    Scoped slots potentials (.atom (Term.slotSymbol id)) :=
  scoped_atom.mpr (.slot h)

theorem scoped_toString (n : Nat) : Scoped slots potentials (.atom (toString n)) :=
  scoped_atom.mpr (visible_toString n)

-- By induction on the term: only `present`, `is` and `same` write a symbol that has to be
-- declared.
theorem scoped_sexp {term : Term} (h : term.Over slots potentials) :
    Scoped slots potentials term.sexp := by
  induction h with
  | const value => cases value <;> exact scoped_atom.mpr (.other (by decide))
  | and _ ih =>
      rw [Term.sexp, Term.sexpOfAll_eq, scoped_group (by decide)]
      exact List.forall_mem_map.mpr ih
  | or _ ih =>
      rw [Term.sexp, Term.sexpOfAll_eq, scoped_group (by decide)]
      exact List.forall_mem_map.mpr ih
  | not _ ih =>
      rw [Term.sexp, scoped_group (by decide), List.forall_mem_singleton]
      exact ih
  | implies _ _ ihantecedent ihconsequent =>
      rw [Term.sexp, scoped_group (by decide), List.forall_mem_cons, List.forall_mem_singleton]
      exact ⟨ihantecedent, ihconsequent⟩
  | present h => exact scoped_atom.mpr (.potential h)
  | is h q =>
      rw [Term.sexp, scoped_group (by decide), List.forall_mem_cons, List.forall_mem_singleton]
      exact ⟨scoped_slotSymbol h, scoped_toString q⟩
  | same hfirst hsecond =>
      rw [Term.sexp, scoped_group (by decide), List.forall_mem_cons, List.forall_mem_singleton]
      exact ⟨scoped_slotSymbol hfirst, scoped_slotSymbol hsecond⟩

theorem scoped_range {id : SlotId} (h : id ∈ slots) (bound : Nat) :
    Scoped slots potentials (Term.range id bound).sexp := by
  have hbound : ∀ head number, Text.stem head ∉ ["slot".toList, "exists".toList] →
      Scoped slots potentials (.atom number) →
      Scoped slots potentials (.list [.atom head, .atom (Term.slotSymbol id), .atom number]) := by
    intro head number hhead hnumber
    rw [scoped_group hhead, List.forall_mem_cons, List.forall_mem_singleton]
    exact ⟨scoped_slotSymbol h, hnumber⟩
  rw [Term.sexp, scoped_group (by decide), List.forall_mem_cons, List.forall_mem_singleton]
  exact ⟨hbound _ _ (by decide) (scoped_toString 0), hbound _ _ (by decide) (scoped_toString bound)⟩

end Terms

section Commands

variable {slots potentials : List SlotId}

theorem scoped_assertion (mode : ScriptMode) {a : Assertion}
    (hterm : Scoped slots potentials a.term.sexp) (hname : Visible slots potentials a.name) :
    Scoped slots potentials (assertion mode a) := by
  rw [assertion, scoped_group (by decide), List.forall_mem_singleton]
  split
  · rw [scoped_group (by decide), List.forall_mem_cons, List.forall_mem_cons,
      List.forall_mem_singleton]
    exact ⟨hterm, scoped_atom.mpr (.other (by decide)), scoped_atom.mpr hname⟩
  · exact hterm

theorem scoped_softAssertion {soft : Term × Nat} (h : Scoped slots potentials soft.1.sexp) :
    Scoped slots potentials (softAssertion soft) := by
  rw [softAssertion, scoped_group (by decide), List.forall_mem_cons, List.forall_mem_cons,
    List.forall_mem_singleton]
  exact ⟨h, scoped_atom.mpr (.other (by decide)), scoped_toString soft.2⟩

theorem scoped_declaration {symbol sort : String} (hsymbol : Visible slots potentials symbol)
    (hsort : Text.stem sort ∉ ["slot".toList, "exists".toList]) :
    Scoped slots potentials (declaration symbol sort) := by
  rw [declaration, scoped_group (by decide), List.forall_mem_cons, List.forall_mem_singleton]
  exact ⟨scoped_atom.mpr hsymbol, scoped_atom.mpr (.other hsort)⟩

theorem scoped_declarations :
    ∀ command ∈ declarations slots potentials, Scoped slots potentials command := by
  rw [declarations, List.forall_mem_append]
  exact ⟨List.forall_mem_map.mpr fun id hid => scoped_declaration (.slot hid) (by decide),
    List.forall_mem_map.mpr fun id hid => scoped_declaration (.potential hid) (by decide)⟩

theorem scoped_keywords {words : List String}
    (h : ∀ word ∈ words, Text.stem word ∉ ["slot".toList, "exists".toList]) :
    Scoped slots potentials (.list (words.map .atom)) :=
  scoped_list.mpr (List.forall_mem_map.mpr fun word hword => scoped_atom.mpr (.other (h word hword)))

theorem scoped_options (mode : ScriptMode) :
    ∀ command ∈ options mode, Scoped slots potentials command := by
  have hoption := @scoped_keywords slots potentials
    ["set-option", ":produce-unsat-cores", "true"] (by decide)
  cases mode with
  | explain => exact List.forall_mem_singleton.mpr hoption
  | satisfy => exact List.forall_mem_nil _
  | optimize => exact List.forall_mem_nil _

theorem scoped_queries (mode : ScriptMode) :
    ∀ command ∈ queries mode, Scoped slots potentials command := by
  rw [queries, List.forall_mem_cons, List.forall_mem_singleton]
  refine ⟨@scoped_keywords slots potentials ["check-sat"] (by decide), ?_⟩
  refine @scoped_keywords slots potentials
    [if mode = .explain then "get-unsat-core" else "get-model"] ?_
  cases mode <;> decide

theorem scoped_commands (mode : ScriptMode) {hard : List Assertion}
    (hhard : ∀ a ∈ hard, Scoped slots potentials a.term.sexp ∧ Visible slots potentials a.name)
    {soft : List (Term × Nat)} (hsoft : ∀ entry ∈ soft, Scoped slots potentials entry.1.sexp) :
    ∀ command ∈ commands mode slots potentials hard soft, Scoped slots potentials command := by
  simp only [commands, List.forall_mem_append]
  exact ⟨⟨⟨⟨scoped_options mode, scoped_declarations⟩,
    List.forall_mem_map.mpr fun a ha => scoped_assertion mode (hhard a ha).1 (hhard a ha).2⟩,
    List.forall_mem_map.mpr fun entry hentry => scoped_softAssertion (hsoft entry hentry)⟩,
    scoped_queries mode⟩

end Commands

section Declarations

-- The three branches of the insertion: already there, in front, further behind.
theorem pairwise_insertId {ids : List SlotId} (h : ids.Pairwise (·.index < ·.index)) (id : SlotId) :
    (insertId id ids).Pairwise (·.index < ·.index) := by
  induction h with
  | nil => exact List.pairwise_singleton _ _
  | @cons other rest hfirst hrest ih =>
      rw [insertId]
      split
      · exact .cons hfirst hrest
      · rename_i hne
        split
        · rename_i hlt
          refine .cons ?_ (.cons hfirst hrest)
          exact List.forall_mem_cons.mpr ⟨hlt, fun later hlater => hlt.trans (hfirst later hlater)⟩
        · rename_i hge
          refine .cons (fun later hlater => ?_) ih
          rcases mem_insertId.mp hlater with rfl | hlater
          · have hindex : later.index ≠ other.index := fun heq => hne (SlotId.eq_of_index heq)
            omega
          · exact hfirst later hlater

theorem nodup_existsSlots (constraints : List Constraint) : (existsSlots constraints).Nodup := by
  have hfold : ∀ potentials ids : List SlotId, ids.Pairwise (·.index < ·.index) →
      (potentials.foldl (fun ids id => insertId id ids) ids).Pairwise (·.index < ·.index) := by
    intro potentials
    induction potentials with
    | nil => exact fun ids h => h
    | cons id rest ih => exact fun ids h => ih _ (pairwise_insertId h id)
  exact (hfold _ [] .nil).imp fun hlt heq => Nat.ne_of_lt hlt (congrArg _ heq)

theorem nodup_declared {slots potentials : List SlotId} (hslots : slots.Nodup)
    (hpotentials : potentials.Nodup) :
    (((declarations slots potentials).filterMap Sexp.declared?).map Prod.fst).Nodup := by
  rw [declared?_declarations, List.map_append, List.map_map, List.map_map, List.nodup_append]
  refine ⟨hslots.map fun _ _ => slotSymbol_inj, hpotentials.map fun _ _ => existsSymbol_inj, ?_⟩
  intro word hword other hother heq
  obtain ⟨id, -, rfl⟩ := List.mem_map.mp hword
  obtain ⟨potential, -, rfl⟩ := List.mem_map.mp hother
  exact slotSymbol_ne_existsSymbol id potential heq

-- What is not in the first part of a list comes after it.
theorem isPrefix_earlier {α : Type} {first rest earlier later : List α} {x : α}
    (h : first ++ rest = earlier ++ x :: later) (hx : x ∉ first) : first <+: earlier := by
  rcases List.prefix_or_prefix_of_prefix (h ▸ List.prefix_append first rest)
    (List.prefix_append earlier (x :: later)) with hbefore | ⟨between, rfl⟩
  · exact hbefore
  · rw [List.append_assoc, List.append_cancel_left_eq] at h
    cases between with
    | nil => exact ⟨[], by simp⟩
    | cons y between =>
        obtain ⟨rfl, -⟩ := List.cons.inj h
        exact absurd (List.mem_append_right _ List.mem_cons_self) hx

end Declarations

section Registry

variable {registry : Registry} {constraints : List Constraint}

-- Nothing is asserted before the last declaration.
theorem isPrefix_declarations {mode : ScriptMode} {slots potentials : List SlotId}
    {hard : List Assertion} {soft : List (Term × Nat)} {earlier later : List Sexp} {command : Sexp}
    (h : commands mode slots potentials hard soft = earlier ++ command :: later) {body : Sexp}
    (hbody : command.asserted? = some body ∨ command.preferred? = some body) :
    options mode ++ declarations slots potentials <+: earlier := by
  have hnone : ∀ other ∈ options mode ++ declarations slots potentials,
      other.asserted? = none ∧ other.preferred? = none := by
    simp only [declarations, List.forall_mem_append, List.forall_mem_map]
    refine ⟨?_, fun _ _ => ⟨rfl, rfl⟩, fun _ _ => ⟨rfl, rfl⟩⟩
    cases mode <;> simp [options, Sexp.asserted?, Sexp.preferred?]
  simp only [commands, List.append_assoc] at h
  rw [← List.append_assoc] at h
  refine isPrefix_earlier h fun hmem => ?_
  obtain ⟨hasserted, hpreferred⟩ := hnone command hmem
  rcases hbody with hbody | hbody
  · cases hasserted.symm.trans hbody
  · cases hpreferred.symm.trans hbody

-- Every symbol of an assertion is declared before, with its sort and only once, and the symbols of
-- constants come up nowhere.
structure WellScoped (registry : Registry) (commands : List Sexp) : Prop where
  declared : ∀ earlier command later, commands = earlier ++ command :: later →
    ∀ body, command.asserted? = some body ∨ command.preferred? = some body →
      ∀ symbol sort, IsSymbol symbol sort → symbol ∈ body.words →
        (symbol, sort) ∈ earlier.filterMap Sexp.declared? ∧
          ((commands.filterMap Sexp.declared?).map Prod.fst).count symbol = 1
  constants : ∀ id slot, registry.get? id = some slot → slot.isConstant = true →
    ∀ command ∈ commands,
      Term.slotSymbol id ∉ command.words ∧ Term.existsSymbol id ∉ command.words

-- Names of assertions end in numbers, but they are no symbols.
theorem Means.visible_name {a : Assertion} (h : Means registry constraints a)
    (slots potentials : List SlotId) : Visible slots potentials a.name := by
  have hstems : ∀ stem ∈ "WellFormedness" :: Constraint.kindNames,
      stem.toList ∉ ["slot".toList, "exists".toList] := by decide
  have hnumbered : ∀ stem ∈ "WellFormedness" :: Constraint.kindNames, ∀ n : Nat,
      Visible slots potentials (stem ++ toString n) := by
    intro stem hstem n
    refine .other ?_
    rw [Text.stem_numbered (stem_isDigit hstem)]
    exact hstems stem hstem
  cases h with
  | slot _ => exact hnumbered _ List.mem_cons_self _
  | constraint _ _ => exact hnumbered _ (List.mem_cons_of_mem _ (Constraint.kindName_mem _)) _

theorem over_assertion (hwf : registry.WellFormed) {c : Constraint} (hc : c ∈ constraints)
    {t : Term} (ht : c.term registry = .ok t) :
    t.simplify.Over registry.variableSlots (existsSlots constraints) := by
  refine ((Constraint.over_term hwf c ht).simplify).mono fun p hp => ?_
  exact mem_existsSlots.mpr (Constraint.potentials_subset hc hp)

theorem Means.scoped_term (hwf : registry.WellFormed) {a : Assertion}
    (h : Means registry constraints a) :
    Scoped registry.variableSlots (existsSlots constraints) a.term.sexp := by
  cases h with
  | slot hid => exact scoped_range hid _
  | constraint hget ht => exact scoped_sexp (over_assertion hwf (List.mem_of_getElem? hget) ht)

theorem scoped_preferences (hwf : registry.WellFormed)
    (hbuilt : ∀ c ∈ constraints, Constraint.Built registry c) :
    ∀ entry ∈ preferences constraints,
      Scoped registry.variableSlots (existsSlots constraints) entry.1.sexp := by
  intro entry hentry
  obtain ⟨c, hc, heq⟩ := List.mem_filterMap.mp hentry
  cases c with
  | preference subject goal q weight location =>
      cases heq
      obtain ⟨_, _, _, _, _, heq, hsubject, -⟩ := (hbuilt _ hc).soft_cases hwf rfl
      cases heq
      exact scoped_sexp (.is hsubject q)
  | _ => cases heq

theorem existsSlots_subset (hwf : registry.WellFormed)
    (hbuilt : ∀ c ∈ constraints, Constraint.Built registry c) :
    existsSlots constraints ⊆ registry.variableSlots := by
  intro p hp
  obtain ⟨c, hc, hvisit⟩ := Constraint.mem_potentialsOfAll.mp (mem_existsSlots.mp hp)
  exact (hbuilt c hc).potentials_variable hwf p (Constraint.mem_potentials.mpr hvisit)

-- The ranges are those of the variables, since no constraint asserts one.
theorem filter_isRangeOf (hwf : registry.WellFormed) {hard : List Assertion}
    (hhard : hardFrom registry 0 constraints = .ok hard) {id : SlotId}
    (hid : id ∈ registry.variableSlots) :
    ((ranges registry ++ hard).map (·.term)).filter (Term.isRangeOf id) =
      [.range id registry.lattice.size] := by
  have hconstraints : (hard.map (·.term)).filter (Term.isRangeOf id) = [] := by
    refine List.filter_eq_nil_iff.mpr (List.forall_mem_map.mpr fun a ha => ?_)
    obtain ⟨i, c, t, hget, ht, rfl⟩ := of_mem_hardFrom hhard ha
    have hover := over_assertion hwf (List.mem_of_getElem? hget) ht
    exact ne_true_of_eq_false (hover.isRangeOf_eq_false id)
  have hone : registry.variableSlots.filter (· = id) = [id] := by
    rw [List.filter_eq, List.count_eq_one_of_mem hwf.nodup_variableSlots hid]
    rfl
  rw [List.map_append, List.filter_append, hconstraints, List.append_nil, ranges, List.map_map,
    List.filter_map]
  exact congrArg (List.map _) hone

theorem exists_hardFrom (hreachable : registry.Reachable)
    (hbuilt : ∀ c ∈ constraints, Constraint.Built registry c)
    (hfalse : Constraint.alwaysFalse ∉ constraints) :
    ∃ hard, hardFrom registry 0 constraints = .ok hard := by
  refine hardFrom_isOk_iff.mpr fun c hc hsoft => ?_
  obtain ⟨t, ht⟩ := Constraint.Encodable.exists_term (hbuilt c hc).succeeds hsoft
  refine ⟨t, ht, fun hvalue => hfalse ?_⟩
  have heq : c = .alwaysFalse := (hbuilt c hc).eq_ofBool hreachable ht hvalue
  exact heq ▸ hc

-- The declarations precede every command with a body, whatever the mode; a constant slot is never
-- among them.
theorem wellScoped_commands (hwf : registry.WellFormed)
    (hbuilt : ∀ c ∈ constraints, Constraint.Built registry c) {hard : List Assertion}
    (hhard : hardFrom registry 0 constraints = .ok hard) (mode : ScriptMode)
    {soft : List (Term × Nat)} (hsoft : soft ⊆ preferences constraints) :
    WellScoped registry (commands mode registry.variableSlots (existsSlots constraints)
      (ranges registry ++ hard) soft) := by
  have hmeans : ∀ a ∈ ranges registry ++ hard, Means registry constraints a :=
    fun a => means_of_mem hhard
  have hpreferred : ∀ entry ∈ soft,
      Scoped registry.variableSlots (existsSlots constraints) entry.1.sexp :=
    fun entry hentry => scoped_preferences hwf hbuilt entry (hsoft hentry)
  refine ⟨?_, ?_⟩
  · intro earlier command later hsplit body hbody symbol sort hsymbol hword
    have hcommand : command ∈ commands mode registry.variableSlots (existsSlots constraints)
        (ranges registry ++ hard) soft := by
      rw [hsplit]
      exact List.mem_append_right _ List.mem_cons_self
    have hscoped : Scoped registry.variableSlots (existsSlots constraints) body := by
      rcases hbody with hbody | hbody
      · have hmem := List.mem_filterMap.mpr ⟨command, hcommand, hbody⟩
        rw [asserted?_commands] at hmem
        obtain ⟨a, ha, rfl⟩ := List.mem_map.mp hmem
        exact (hmeans a ha).scoped_term hwf
      · have hmem := List.mem_filterMap.mpr ⟨command, hcommand, hbody⟩
        rw [preferred?_commands] at hmem
        obtain ⟨entry, hentry, rfl⟩ := List.mem_map.mp hmem
        exact hpreferred entry hentry
    have hdeclared := (hscoped symbol hword).declared hsymbol
    -- declared before, and only once
    refine ⟨?_, ?_⟩
    · refine ((isPrefix_declarations hsplit hbody).filterMap _).subset ?_
      rw [List.filterMap_append]
      exact List.mem_append_right _ hdeclared
    · rw [declared?_commands]
      exact List.count_eq_one_of_mem
        (nodup_declared hwf.nodup_variableSlots (nodup_existsSlots constraints))
        (List.mem_map_of_mem hdeclared)
  · intro id slot hget hconstant command hcommand
    have hscoped := scoped_commands mode
      (fun a ha => ⟨(hmeans a ha).scoped_term hwf, (hmeans a ha).visible_name _ _⟩) hpreferred
      command hcommand
    have hid : id ∉ registry.variableSlots := by
      rw [hwf.mem_variableSlots hget]
      intro hnone
      rw [Slot.isConstant, hnone] at hconstant
      cases hconstant
    exact ⟨fun hword => hid (hscoped _ hword).slotSymbol,
      fun hword => hid (existsSlots_subset hwf hbuilt (hscoped _ hword).existsSymbol)⟩

-- The script of built constraints that are not false by their form can be written in every mode.
-- It is well scoped, bounds every variable once and makes the same hard assertions in all modes.
theorem wellScoped_ofConstraints (hreachable : registry.Reachable)
    (hbuilt : ∀ c ∈ constraints, Constraint.Built registry c)
    (hfalse : Constraint.alwaysFalse ∉ constraints) :
    ∃ hard, hardFrom registry 0 constraints = .ok hard ∧
      (∀ id ∈ registry.variableSlots,
        ((ranges registry ++ hard).map (·.term)).filter (Term.isRangeOf id) =
          [.range id registry.lattice.size]) ∧
      ∀ mode, ∃ script commands, ofConstraints registry constraints mode = .ok script ∧
        read script.text = some commands ∧
        commands.filterMap Sexp.asserted? = (ranges registry ++ hard).map (·.term.sexp) ∧
        commands.filterMap Sexp.preferred? =
          (if mode = .optimize then preferences constraints else []).map (·.1.sexp) ∧
        WellScoped registry commands := by
  have hwf := hreachable.wellFormed
  obtain ⟨hard, hhard⟩ := exists_hardFrom hreachable hbuilt hfalse
  refine ⟨hard, hhard, fun id hid => filter_isRangeOf hwf hhard hid, fun mode => ?_⟩
  have hsoft : (if mode = .optimize then preferences constraints else []) ⊆
      preferences constraints := by
    split
    · exact List.Subset.refl _
    · exact List.nil_subset _
  have hplain : ∀ a ∈ ranges registry ++ hard, Token.isPlain (.atom a.name) = true :=
    fun a ha => (means_of_mem hhard ha).isPlain_name
  refine ⟨_, _, Except.bind_of_ok hhard, read_lines mode _ _ _ hplain _,
    asserted?_commands .., preferred?_commands .., wellScoped_commands hwf hbuilt hhard mode hsoft⟩

end Registry

open Registry in
theorem taintFlow_wellScoped :
    taint.Reachable ∧ (∀ c ∈ Cnf.taintFlow, Constraint.Built taint c) ∧
      Constraint.alwaysFalse ∉ Cnf.taintFlow ∧
      taint.variableSlots = [sourceSlot, sinkSlot] ∧ existsSlots Cnf.taintFlow = [sourceSlot] ∧
      (∀ mode, ∃ script commands, ofConstraints taint Cnf.taintFlow mode = .ok script ∧
        read script.text = some commands ∧ (commands.filterMap Sexp.asserted?).length = 4 ∧
        WellScoped taint commands) ∧
      ∃ script commands, ofConstraints taint Cnf.taintFlow .optimize = .ok script ∧
        read script.text = some commands ∧
        commands.filterMap Sexp.preferred? =
          [(Term.is sinkSlot 1).sexp, (Term.is sourceSlot 0).sexp] := by
  have hfalse : Constraint.alwaysFalse ∉ Cnf.taintFlow := by simp [Cnf.taintFlow]
  obtain ⟨hard, hhard, -, hscripts⟩ :=
    wellScoped_ofConstraints taint_reachable Cnf.taintFlow_built hfalse
  have hlength : (ranges taint ++ hard).length = 4 := by
    have htwo : (hardFrom taint 0 Cnf.taintFlow).map List.length = .ok 2 := rfl
    rw [hhard] at htwo
    rw [List.length_append, Except.ok.inj htwo]
    rfl
  refine ⟨taint_reachable, Cnf.taintFlow_built, hfalse, rfl, rfl, fun mode => ?_, ?_⟩
  · obtain ⟨script, commands, hscript, hread, hasserted, -, hscoped⟩ := hscripts mode
    refine ⟨script, commands, hscript, hread, ?_, hscoped⟩
    rw [hasserted, List.length_map, hlength]
  · obtain ⟨script, commands, hscript, hread, -, hpreferred, -⟩ := hscripts .optimize
    exact ⟨script, commands, hscript, hread, hpreferred⟩

end Script

end Qualify
