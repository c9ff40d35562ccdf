import Qualify.Proofs.Clause.Renumbering

namespace Qualify

-- A translation that goes through constraints once and hands out variables on the way.
abbrev Translation := ExceptT Inconsistency (StateM Numbering)

namespace Numbering

def run {α : Type} (numbering : Numbering) (translation : Translation α) :
    Except Inconsistency α × Numbering :=
  (ExceptT.run translation).run numbering

section Run

variable {α β : Type} {numbering after : Numbering} {first : Translation α}
  {next : α → Translation β}

theorem run_bind_of_ok {a : α} (h : numbering.run first = (.ok a, after)) :
    numbering.run (first >>= next) = after.run (next a) := by
  simp only [run, ExceptT.run_bind, StateT.run_bind] at h ⊢
  rw [h]
  rfl

theorem run_bind_of_error {e : Inconsistency} (h : numbering.run first = (.error e, after)) :
    numbering.run (first >>= next) = (.error e, after) := by
  simp only [run, ExceptT.run_bind, StateT.run_bind] at h ⊢
  rw [h]
  rfl

end Run

end Numbering

-- The literal of a potential slot. One that is met first takes the number behind the last one, if
-- there is such a number.
def Translation.presence (potential : SlotId) : Translation Literal := do
  let numbering ← get
  if numbering.potentials.contains potential then
    (numbering.presence? potential).mapError Inconsistency.fault
  else if numbering.count + 1 < 0x100000000 then
    set { numbering with potentials := numbering.potentials ++ [potential] }
    return Literal.narrow (numbering.count + 1)
  else throw (.fault .overflow)

namespace Constraint

variable (registry : Registry)

mutual

-- The clauses of a constraint in one pass, in which a potential slot takes its variable when the
-- pass comes to it.
def translate : Constraint → Translation (List Clause)
  | alwaysTrue => return []
  | alwaysFalse => return [[]]
  | relation kind first second location => do
      let route ← registry.relationRoute kind first second location
      let clauses := (← get).relationClauses registry.lattice kind route
      (Clause.checked clauses).mapError Inconsistency.fault
  | function table left right result location => do
      let operands ← registry.functionRoute table left right result location
      let clauses := (← get).functionClauses registry.lattice table result operands
      (Clause.checked clauses).mapError Inconsistency.fault
  | preference subject goal q weight location =>
      throw (.nestedSoft (preference subject goal q weight location))
  | existential potential present absent _ => do
      let literal ← Translation.presence potential
      let present ← translateAll [-literal] present
      let absent ← translateAll [literal] absent
      return present ++ absent
  | implication assumptions conclusion location => do
      let assumed ← translateAll [] assumptions
      let concluded ← translate conclusion
      distributed (implication assumptions conclusion location) assumed concluded

def translateAll (ending : Clause) : List Constraint → Translation (List Clause)
  | [] => return []
  | c :: rest => do
      let clauses ← translate c
      let extended ← (Clause.checked (clauses.map (· ++ ending))).mapError Inconsistency.fault
      let others ← translateAll ending rest
      return extended ++ others

end

end Constraint

namespace Numbering

theorem use_of_mem {numbering : Numbering} {potential : SlotId}
    (h : potential ∈ numbering.potentials) : numbering.use potential = numbering := by
  simp [use, h]

-- A potential slot that is met first has the number behind the last one.
theorem presence?_use_of_notMem {numbering : Numbering} {potential : SlotId}
    (h : potential ∉ numbering.potentials) :
    (numbering.use potential).presence? potential =
      if numbering.count + 1 < 0x100000000 then .ok (Literal.narrow (numbering.count + 1))
      else .error .overflow := by
  have huse : (numbering.use potential).potentials = numbering.potentials ++ [potential] := by
    simp [use, h]
  have hindex : (numbering.potentials ++ [potential]).idxOf potential =
      numbering.potentials.length := by
    simp [List.idxOf_append_of_notMem h]
  rw [presence?, presence, huse, hindex, use_matrix, count, Int.natCast_add]

theorem run_presence_of_mem {numbering : Numbering} {potential : SlotId}
    (h : potential ∈ numbering.potentials) :
    numbering.run (Translation.presence potential) =
      ((numbering.presence? potential).mapError .fault, numbering) := by
  have hget : numbering.run get = (.ok numbering, numbering) := rfl
  rw [Translation.presence, run_bind_of_ok hget, if_pos (List.contains_iff_mem.mpr h)]
  rfl

theorem run_presence_of_notMem {numbering : Numbering} {potential : SlotId}
    (h : potential ∉ numbering.potentials) :
    numbering.run (Translation.presence potential) =
      if numbering.count + 1 < 0x100000000 then
        (.ok (Literal.narrow (numbering.count + 1)), numbering.use potential)
      else (.error (.fault .overflow), numbering) := by
  have hget : numbering.run get = (.ok numbering, numbering) := rfl
  have hcontains : ¬numbering.potentials.contains potential = true :=
    fun hmem => h (List.contains_iff_mem.mp hmem)
  rw [Translation.presence, run_bind_of_ok hget, if_neg hcontains, use, if_neg hcontains]
  split <;> rfl

end Numbering

def Visit.potentialsBefore (registry : Registry) (visits : List Visit) : List SlotId :=
  (visits.takeWhile (Visit.succeeds registry)).filterMap Visit.potential?

namespace Visit

variable {registry : Registry} {visits others : List Visit}

theorem potentialsBefore_append_of_succeeds
    (h : ∀ visit ∈ visits, visit.succeeds registry = true) :
    potentialsBefore registry (visits ++ others) =
      potentialsBefore registry visits ++ potentialsBefore registry others := by
  have hall : visits.takeWhile (succeeds registry) = visits := List.takeWhile_eq_self_iff.mpr h
  rw [potentialsBefore, List.takeWhile_append_of_pos h, List.filterMap_append, potentialsBefore,
    hall, potentialsBefore]

theorem potentialsBefore_append_of_fails
    (h : ¬∀ visit ∈ visits, visit.succeeds registry = true) :
    potentialsBefore registry (visits ++ others) = potentialsBefore registry visits := by
  have hshort : (visits.takeWhile (succeeds registry)).length ≠ visits.length := by
    intro heq
    exact h (List.takeWhile_eq_self_iff.mp ((List.takeWhile_sublist _).eq_of_length heq))
  rw [potentialsBefore, List.takeWhile_append, if_neg hshort, potentialsBefore]

end Visit

def Inconsistency.IsFault (e : Inconsistency) : Prop :=
  ∃ cause, e = .fault cause

-- A translation that goes through some visits in their order. `result` is what it gives when all
-- variables are known beforehand. Where it breaks off, the variables in use are of no account.
structure Follows (registry : Registry) (visits : List Visit) {α : Type}
    (translation : Translation α) (result : Numbering → Except Inconsistency α) : Prop where
  run_fst : ∀ numbering : Numbering, (numbering.run translation).1 =
    result (numbering.useAll (Visit.potentialsBefore registry visits))
  run_snd : ∀ numbering : Numbering,
    (∀ e, (numbering.run translation).1 = .error e → ¬e.IsFault) →
      (numbering.run translation).2 =
        numbering.useAll (Visit.potentialsBefore registry visits)
  succeeds : ∀ numbering a, result numbering = .ok a →
    ∀ visit ∈ visits, visit.succeeds registry = true
  fails : ∀ numbering e, result numbering = .error e →
    e.IsFault ∨ ¬∀ visit ∈ visits, visit.succeeds registry = true
  stable : ∀ numbering potentials,
    (∀ p, Visit.potential p ∈ visits → p ∈ numbering.potentials) →
      result (numbering.useAll potentials) = result numbering

namespace Follows

variable {registry : Registry} {α β : Type}

-- What needs no variable either succeeds or breaks off.
theorem lift {x : Except Inconsistency α} (hx : ∀ e, x = .error e → e.IsFault) :
    Follows registry [] (liftM x) fun _ => x where
  run_fst numbering := by cases x <;> rfl
  run_snd numbering _ := by cases x <;> rfl
  succeeds numbering a _ := by simp
  fails numbering e he := .inl (hx e he)
  stable numbering potentials _ := rfl

-- Either the slot already has its variable and nothing changes, or the next one is handed out,
-- which is the one place where the numbers can run out.
theorem presence (potential : SlotId) :
    Follows registry [.potential potential] (Translation.presence potential)
      fun numbering => (numbering.presence? potential).mapError .fault where
  run_fst numbering := by
    change _ = ((numbering.use potential).presence? potential).mapError Inconsistency.fault
    by_cases h : potential ∈ numbering.potentials
    · rw [Numbering.run_presence_of_mem h, Numbering.use_of_mem h]
    · rw [Numbering.run_presence_of_notMem h, Numbering.presence?_use_of_notMem h]
      split <;> rfl
  run_snd numbering hfault := by
    change _ = numbering.use potential
    by_cases h : potential ∈ numbering.potentials
    · rw [Numbering.run_presence_of_mem h, Numbering.use_of_mem h]
    · rw [Numbering.run_presence_of_notMem h] at hfault ⊢
      split at hfault
      · rename_i hroom
        rw [if_pos hroom]
      · exact absurd ⟨_, rfl⟩ (hfault _ rfl)
  succeeds numbering a _ := by simp [Visit.succeeds]
  fails numbering e he := by
    rw [Numbering.presence?] at he
    split at he
    · cases he
    · cases he
      exact .inl ⟨_, rfl⟩
  stable numbering potentials h := by
    rw [Numbering.presence?_useAll (h potential List.mem_cons_self)]

-- Once all visits have succeeded, more variables do not change what comes out.
theorem stable_before {visits : List Visit} {translation : Translation α}
    {result : Numbering → Except Inconsistency α}
    (h : Follows registry visits translation result) (numbering : Numbering)
    (hsucceeds : ∀ visit ∈ visits, visit.succeeds registry = true) (potentials : List SlotId) :
    result ((numbering.useAll (Visit.potentialsBefore registry visits)).useAll potentials) =
      result (numbering.useAll (Visit.potentialsBefore registry visits)) := by
  refine h.stable _ _ fun p hp => ?_
  rw [Visit.potentialsBefore, List.takeWhile_eq_self_iff.mpr hsucceeds]
  exact Numbering.mem_useAll.mpr (.inr (List.mem_filterMap.mpr ⟨_, hp, rfl⟩))

-- After a failure nothing is met any more. Otherwise the variables that are handed out later make
-- no difference to what was translated before.
theorem bind {visits others : List Visit} {first : Translation α} {next : α → Translation β}
    {result : Numbering → Except Inconsistency α} {results : α → Numbering → Except Inconsistency β}
    (hfirst : Follows registry visits first result)
    (hnext : ∀ a, Follows registry others (next a) (results a)) :
    Follows registry (visits ++ others) (first >>= next)
      fun numbering => result numbering >>= fun a => results a numbering := by
  -- The run of both, by what the first part comes to.
  have hboth : ∀ numbering : Numbering,
      (numbering.run (first >>= next)).1 =
        (let after := numbering.useAll (Visit.potentialsBefore registry (visits ++ others))
        result after >>= fun a => results a after) ∧
      ((∀ e, (numbering.run (first >>= next)).1 = .error e → ¬e.IsFault) →
        (numbering.run (first >>= next)).2 =
          numbering.useAll (Visit.potentialsBefore registry (visits ++ others))) := by
    intro numbering
    have hrun := hfirst.run_fst numbering
    cases hresult : result (numbering.useAll (Visit.potentialsBefore registry visits)) with
    | ok a =>
        have hsucceeds := hfirst.succeeds _ a hresult
        have hafter := hfirst.run_snd numbering fun e he => by
          rw [hrun, hresult] at he
          cases he
        have hpair : numbering.run first =
            (.ok a, numbering.useAll (Visit.potentialsBefore registry visits)) :=
          Prod.ext (hrun.trans hresult) hafter
        have hstable := (hfirst.stable_before numbering hsucceeds
          (Visit.potentialsBefore registry others)).trans hresult
        rw [Numbering.run_bind_of_ok hpair, Visit.potentialsBefore_append_of_succeeds hsucceeds,
          Numbering.useAll_append]
        refine ⟨?_, (hnext a).run_snd _⟩
        rw [(hnext a).run_fst]
        dsimp only
        rw [Except.bind_of_ok hstable]
    | error e =>
        have hpair : numbering.run first = (.error e, (numbering.run first).2) :=
          Prod.ext (hrun.trans hresult) rfl
        rw [Numbering.run_bind_of_error hpair]
        by_cases hsucceeds : ∀ visit ∈ visits, visit.succeeds registry = true
        · have hfault := (hfirst.fails _ e hresult).resolve_right (not_not.mpr hsucceeds)
          have hstable := (hfirst.stable_before numbering hsucceeds
            (Visit.potentialsBefore registry others)).trans hresult
          rw [Visit.potentialsBefore_append_of_succeeds hsucceeds, Numbering.useAll_append]
          exact ⟨(Except.bind_of_error hstable).symm, fun h => absurd hfault (h e rfl)⟩
        · rw [Visit.potentialsBefore_append_of_fails hsucceeds]
          refine ⟨(Except.bind_of_error hresult).symm, fun h => hfirst.run_snd numbering ?_⟩
          intro e' he'
          rw [hrun, hresult] at he'
          cases he'
          exact h e rfl
  exact {
    run_fst := fun numbering => (hboth numbering).1
    run_snd := fun numbering => (hboth numbering).2
    succeeds := fun numbering b hb => by
      obtain ⟨a, ha, hb⟩ := Except.bind_eq_ok.mp hb
      exact List.forall_mem_append.mpr
        ⟨hfirst.succeeds numbering a ha, (hnext a).succeeds numbering b hb⟩
    fails := fun numbering e he => by
      rw [List.forall_mem_append, not_and_or]
      cases hresult : result numbering with
      | error e' =>
          rw [Except.bind_of_error hresult] at he
          cases he
          exact (hfirst.fails numbering e hresult).imp_right .inl
      | ok a =>
          rw [Except.bind_of_ok hresult] at he
          exact ((hnext a).fails numbering e he).imp_right .inr
    stable := fun numbering potentials hcovered => by
      have hresults : ∀ a, results a (numbering.useAll potentials) = results a numbering :=
        fun a => (hnext a).stable _ _ fun p hp => hcovered p (List.mem_append_right _ hp)
      simp only [hresults,
        hfirst.stable _ _ fun p hp => hcovered p (List.mem_append_left _ hp)] }

theorem bind_return {visits : List Visit} {first : Translation α}
    {result : Numbering → Except Inconsistency α} (hfirst : Follows registry visits first result)
    (f : α → β) : Follows registry visits (do return f (← first))
      fun numbering => do return f (← result numbering) := by
  have hbind := hfirst.bind fun a => Follows.lift (x := .ok (f a)) fun e he => by cases he
  rwa [List.append_nil] at hbind

-- A part without parts of its own, whose clauses do not depend on the variables handed out.
theorem part {c : Constraint} (found : Except Inconsistency α)
    (f : Numbering → α → Except Inconsistency β) (hfound : found.isOk = c.isEncodable registry)
    (hfault : ∀ numbering a e, f numbering a = .error e → e.IsFault)
    (hf : ∀ numbering potentials, f (Numbering.useAll numbering potentials) = f numbering) :
    Follows registry [.part c] (do let a ← found; f (← get) a)
      fun numbering => found >>= f numbering := by
  have hnone : Visit.potentialsBefore registry [.part c] = [] := by
    rw [Visit.potentialsBefore, List.takeWhile_cons]
    split <;> rfl
  have hrun : ∀ numbering : Numbering,
      numbering.run (do let a ← found; f (← get) a) =
        (found >>= f numbering, numbering) := by
    intro numbering
    cases found with
    | error e => rfl
    | ok a =>
        change numbering.run (liftM (f numbering a)) = (f numbering a, numbering)
        cases f numbering a <;> rfl
  have hsucceeds : (∀ visit ∈ [Visit.part c], visit.succeeds registry = true) ↔
      ∃ a, found = .ok a := by
    rw [List.forall_mem_singleton, ← Except.isOk_iff, hfound]
    rfl
  exact {
    run_fst := fun numbering => by
      rw [hnone, hrun]
      rfl
    run_snd := fun numbering _ => by
      rw [hnone, hrun]
      rfl
    succeeds := fun numbering b hb => by
      obtain ⟨a, ha, -⟩ := Except.bind_eq_ok.mp hb
      exact hsucceeds.mpr ⟨a, ha⟩
    fails := fun numbering e he => by
      cases hfound : found with
      | error e' => exact .inr fun h => by cases hfound.symm.trans (hsucceeds.mp h).choose_spec
      | ok a =>
          rw [Except.bind_of_ok hfound] at he
          exact .inl (hfault numbering a e he)
    stable := fun numbering potentials _ => by simp only [hf] }

end Follows

theorem Clause.isFault_of_checked_eq_error {clauses : List Clause} {e : Inconsistency}
    (h : (checked clauses).mapError Inconsistency.fault = .error e) : e.IsFault := by
  cases hchecked : checked clauses with
  | error cause =>
      rw [hchecked] at h
      cases h
      exact ⟨cause, rfl⟩
  | ok all =>
      rw [hchecked] at h
      cases h

namespace Constraint

theorem isFault_of_distributed_eq_error {c : Constraint} {assumptions conclusions : List Clause}
    {e : Inconsistency} (h : distributed c assumptions conclusions = .error e) : e.IsFault := by
  by_cases hroom : (Clause.picked assumptions).all Literal.isNegatable = true ∧
      Clause.HasRoom assumptions conclusions
  · rw [distributed_of_hasRoom c hroom.1 hroom.2] at h
    cases h
  · rw [distributed_of_not_hasRoom c hroom] at h
    cases h
    exact ⟨_, rfl⟩

variable (registry : Registry)

theorem follows_translateAll {parts : List Constraint}
    (h : ∀ part ∈ parts, Follows registry part.visits (part.translate registry)
      fun numbering => part.clausesWith registry numbering) (ending : Clause) :
    Follows registry (visitsOfAll parts) (translateAll registry ending parts)
      fun numbering => clausesOfAll registry numbering ending parts := by
  induction parts with
  | nil => exact Follows.lift (x := .ok []) fun e he => by cases he
  | cons c rest ih =>
      obtain ⟨hc, hrest⟩ := List.forall_mem_cons.mp h
      exact hc.bind fun clauses =>
        (Follows.lift fun e => Clause.isFault_of_checked_eq_error).bind fun extended =>
          (ih hrest).bind_return (extended ++ ·)

-- One pass meets the parts of a constraint in the order of its visits.
theorem follows_translate (c : Constraint) :
    Follows registry c.visits (c.translate registry)
      fun numbering => c.clausesWith registry numbering := by
  have hnever : ∀ (numbering : Numbering) (clauses : List Clause) (e : Inconsistency),
      Except.ok clauses = .error e → e.IsFault := fun _ _ _ he => by cases he
  induction c with
  | alwaysTrue =>
      exact Follows.part (c := .alwaysTrue) (.ok []) (fun _ clauses => .ok clauses) rfl hnever
        fun _ _ => rfl
  | alwaysFalse =>
      exact Follows.part (c := .alwaysFalse) (.ok [[]]) (fun _ clauses => .ok clauses) rfl hnever
        fun _ _ => rfl
  | relation kind first second location =>
      refine Follows.part (c := .relation kind first second location)
        (registry.relationRoute kind first second location)
        (fun numbering route => (Clause.checked
          (numbering.relationClauses registry.lattice kind route)).mapError Inconsistency.fault)
        rfl (fun numbering route e => Clause.isFault_of_checked_eq_error)
        fun numbering potentials => funext fun route => ?_
      rw [Numbering.relationClauses_congr (Numbering.useAll_size numbering potentials)]
  | function table left right result location =>
      refine Follows.part (c := .function table left right result location)
        (registry.functionRoute table left right result location)
        (fun numbering operands => (Clause.checked (numbering.functionClauses registry.lattice table
          result operands)).mapError Inconsistency.fault)
        rfl (fun numbering operands e => Clause.isFault_of_checked_eq_error)
        fun numbering potentials => funext fun operands => ?_
      rw [Numbering.functionClauses_congr (Numbering.useAll_size numbering potentials)]
  | preference subject goal q weight location =>
      exact Follows.part (c := .preference subject goal q weight location)
        (.error (.nestedSoft (preference subject goal q weight location)))
        (fun _ clauses => .ok clauses) rfl hnever fun _ _ => rfl
  | existential potential present absent location ihpresent ihabsent =>
      have hpresent := follows_translateAll registry ihpresent
      have habsent := follows_translateAll registry ihabsent
      exact (Follows.presence potential).bind fun literal =>
        (hpresent [-literal]).bind fun present => (habsent [literal]).bind_return (present ++ ·)
  | implication assumptions conclusion location ihassumptions ihconclusion =>
      have hassumptions := follows_translateAll registry ihassumptions []
      have hlast : ∀ assumed concluded, Follows registry []
          (liftM (distributed (implication assumptions conclusion location) assumed concluded))
          fun _ => distributed (implication assumptions conclusion location) assumed concluded :=
        fun assumed concluded => Follows.lift fun e => isFault_of_distributed_eq_error
      have hbind := hassumptions.bind fun assumed =>
        ihconclusion.bind fun concluded => hlast assumed concluded
      rwa [List.append_nil] at hbind

-- Handing out variables on the way comes to the same as knowing them beforehand, also when a part
-- cannot be encoded.
theorem run_translate (c : Constraint) (numbering : Numbering)
    (h : ∀ e, (c.clauses registry numbering).1 = .error e → ¬e.IsFault) :
    numbering.run (c.translate registry) = c.clauses registry numbering := by
  have hrun := (follows_translate registry c).run_fst numbering
  refine Prod.ext hrun ((follows_translate registry c).run_snd numbering ?_)
  rw [hrun]
  exact h

end Constraint

end Qualify
