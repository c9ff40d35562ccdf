import Qualify.Proofs.Clause.Room
import Qualify.Proofs.Constraint.Meaning

namespace Qualify

namespace Constraint

variable (registry : Registry) (numbering : Numbering)

mutual

-- The clauses of a constraint when numbers have no bounds and lists hold any number of clauses.
def idealClauses : Constraint → Except Inconsistency (List Clause)
  | alwaysTrue => .ok []
  | alwaysFalse => .ok [[]]
  | relation kind first second location => do
      let route ← registry.relationRoute kind first second location
      return numbering.relationClauses registry.lattice kind route
  | function table left right result location => do
      let operands ← registry.functionRoute table left right result location
      return numbering.functionClauses registry.lattice table result operands
  | preference subject goal q weight location =>
      .error (.nestedSoft (preference subject goal q weight location))
  | existential potential present absent _ => do
      let present ← idealClausesOfAll present
      let absent ← idealClausesOfAll absent
      return present.map (· ++ [-numbering.presence potential]) ++
        absent.map (· ++ [numbering.presence potential])
  | implication assumptions conclusion _ => do
      let assumptions ← idealClausesOfAll assumptions
      let conclusions ← idealClauses conclusion
      return Clause.implying assumptions conclusions

def idealClausesOfAll : List Constraint → Except Inconsistency (List Clause)
  | [] => .ok []
  | c :: rest => do
      let clauses ← idealClauses c
      let others ← idealClausesOfAll rest
      return clauses ++ others

end

end Constraint

-- A computation that is another one, unless an overflow cuts it short.
def CutShort {α : Type} (actual ideal : Except Inconsistency α) : Prop :=
  actual = ideal ∨ actual = .error (.fault .overflow)

namespace CutShort

variable {α β : Type}

theorem refl (x : Except Inconsistency α) : CutShort x x :=
  .inl rfl

theorem overflow (x : Except Inconsistency α) : CutShort (.error (.fault .overflow)) x :=
  .inr rfl

theorem bind {x y : Except Inconsistency α} {f g : α → Except Inconsistency β}
    (h : CutShort x y) (hnext : ∀ a, CutShort (f a) (g a)) : CutShort (x >>= f) (y >>= g) := by
  rcases h with rfl | rfl
  · cases x with
    | error e => exact .inl rfl
    | ok a => exact hnext a
  · exact .inr rfl

theorem eq_of_ok {x y : Except Inconsistency α} (h : CutShort x y) {a : α} (hx : x = .ok a) :
    y = .ok a := by
  rcases h with rfl | hfault
  · exact hx
  · cases hx.symm.trans hfault

end CutShort

theorem Clause.checked_cutShort (clauses : List Clause) :
    CutShort ((Clause.checked clauses).mapError .fault) (.ok clauses) := by
  by_cases h : Words clauses
  · rw [Clause.checked_of_words h]
    exact .refl _
  · rw [Clause.checked_of_not_words h]
    exact .overflow _

namespace Constraint

variable {registry : Registry} {numbering : Numbering}

theorem distributed_cutShort (c : Constraint) (assumptions conclusions : List Clause) :
    CutShort (distributed c assumptions conclusions)
      (.ok (Clause.implying assumptions conclusions)) := by
  by_cases h : (Clause.picked assumptions).all Literal.isNegatable = true ∧
      Clause.HasRoom assumptions conclusions
  · rw [distributed_of_hasRoom c h.1 h.2]
    exact .refl _
  · rw [distributed_of_not_hasRoom c h]
    exact .overflow _

-- By induction on the parts, with the unbounded translation rewritten into the same three steps.
theorem clausesOfAll_cutShort {parts : List Constraint}
    (h : ∀ part ∈ parts, CutShort (clausesWith registry numbering part)
      (idealClauses registry numbering part)) (ending : Clause) :
    CutShort (clausesOfAll registry numbering ending parts)
      (do return (← idealClausesOfAll registry numbering parts).map (· ++ ending)) := by
  induction parts with
  | nil => exact .refl _
  | cons c rest ih =>
      obtain ⟨hc, hrest⟩ := List.forall_mem_cons.mp h
      have hideal : (do
            return (← idealClausesOfAll registry numbering (c :: rest)).map (· ++ ending)) = (do
          let clauses ← idealClauses registry numbering c
          let extended ← .ok (clauses.map (· ++ ending))
          let others ← (do
            return (← idealClausesOfAll registry numbering rest).map (· ++ ending))
          return extended ++ others) := by
        rw [idealClausesOfAll]
        cases idealClauses registry numbering c with
        | error e => rfl
        | ok clauses =>
            cases idealClausesOfAll registry numbering rest with
            | error e => rfl
            | ok others => exact congrArg Except.ok List.map_append
      rw [hideal, clausesOfAll]
      exact hc.bind fun clauses => (Clause.checked_cutShort _).bind fun extended =>
        (ih hrest).bind fun others => .refl _

-- Nothing but an overflow tells the clauses from the ideal ones. In particular their number is
-- always the expected one.
theorem clausesWith_cutShort (registry : Registry) (numbering : Numbering) (c : Constraint) :
    CutShort (clausesWith registry numbering c) (idealClauses registry numbering c) := by
  induction c with
  | alwaysTrue => exact .refl _
  | alwaysFalse => exact .refl _
  | relation kind first second location =>
      rw [clausesWith, idealClauses]
      exact (CutShort.refl _).bind fun route => Clause.checked_cutShort _
  | function table left right result location =>
      rw [clausesWith, idealClauses]
      exact (CutShort.refl _).bind fun operands => Clause.checked_cutShort _
  | preference subject goal q weight location => exact .refl _
  | existential potential present absent location ihpresent ihabsent =>
      rw [clausesWith, Numbering.presence?]
      split
      · have hpresent := clausesOfAll_cutShort ihpresent [-numbering.presence potential]
        have habsent := clausesOfAll_cutShort ihabsent [numbering.presence potential]
        have hboth := hpresent.bind fun ps => habsent.bind fun as => .refl (pure (ps ++ as))
        simp only [bind_assoc, pure_bind] at hboth
        rw [idealClauses]
        exact hboth
      · exact .overflow _
  | implication assumptions conclusion location ihassumptions ihconclusion =>
      have hassumptions := clausesOfAll_cutShort ihassumptions []
      simp only [List.append_nil, List.map_id', bind_pure] at hassumptions
      rw [clausesWith, idealClauses]
      exact hassumptions.bind fun as => ihconclusion.bind fun cs => distributed_cutShort _ as cs

theorem idealClauses_of_clausesWith {c : Constraint} {clauses : List Clause}
    (h : clausesWith registry numbering c = .ok clauses) :
    idealClauses registry numbering c = .ok clauses :=
  (clausesWith_cutShort registry numbering c).eq_of_ok h

end Constraint

end Qualify
