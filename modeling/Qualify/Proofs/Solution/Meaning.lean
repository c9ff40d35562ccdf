import Mathlib.Algebra.BigOperators.Group.List.Basic
import Mathlib.Algebra.GroupWithZero.Nat
import Mathlib.Data.List.Basic
import Qualify.Proofs.Constraint.Built
import Qualify.Proofs.Entries
import Qualify.Solution.Verify

namespace Qualify

theorem lookup_of_nodup {α β : Type} [BEq α] [LawfulBEq α] {entries : List (α × β)}
    (hnodup : (entries.map Prod.fst).Nodup) {key : α} {value : β} (h : (key, value) ∈ entries) :
    entries.lookup key = some value := by
  obtain ⟨before, after, rfl⟩ := List.append_of_mem h
  refine List.lookup_eq_some_iff.mpr ⟨before, after, rfl, fun entry hentry => ?_⟩
  rw [List.map_append, List.nodup_append] at hnodup
  exact bne_iff_ne.mpr fun heq => hnodup.2.2 _ (List.mem_map_of_mem hentry) key (by simp) heq.symm

namespace Solution

def reward (solution : Solution) : Constraint → Nat
  | .preference subject _ q weight _ => if solution.get? subject = some q then weight else 0
  | _ => 0

def gain (solution : Solution) (constraints : List Constraint) : Nat :=
  (constraints.map solution.reward).sum

-- What is not gained is paid, so the greatest gain and the least cost are the same.
theorem cost_add_gain (solution other : Solution) (constraints : List Constraint) :
    solution.cost constraints + solution.gain constraints =
      other.cost constraints + other.gain constraints := by
  have hsum : ∀ (s : Solution) (c : Constraint), s.penalty c + s.reward c =
      match c with
      | .preference _ _ _ weight _ => weight
      | _ => 0 := by
    intro s c
    cases c with
    | preference subject goal q weight location =>
        simp only [penalty, reward]
        split <;> omega
    | _ => rfl
  induction constraints with
  | nil => rfl
  | cons c rest ih =>
      have hone := (hsum solution c).trans (hsum other c).symm
      simp only [cost, gain, List.foldr_cons, List.map_cons, List.sum_cons] at ih ⊢
      omega

theorem insertSorted_of_lt {id : SlotId} {q : Qualifier} {entries : List (SlotId × Qualifier)}
    (h : ∀ entry ∈ entries, entry.1.index < id.index) :
    insertSorted id q entries = entries ++ [(id, q)] := by
  induction entries with
  | nil => rfl
  | cons entry rest ih =>
      obtain ⟨hentry, hrest⟩ := List.forall_mem_cons.mp h
      have hne : id ≠ entry.1 := by
        rintro rfl
        exact Nat.lt_irrefl _ hentry
      simp [insertSorted, hne, Nat.lt_asymm hentry, ih hrest]

-- By induction on the entries: the new one replaces, precedes or follows the first.
theorem get?_insert (solution : Solution) (id other : SlotId) (q : Qualifier) :
    (solution.insert id q).get? other = if id = other then some q else solution.get? other := by
  obtain ⟨entries⟩ := solution
  simp only [insert, get?]
  induction entries with
  | nil => rw [insertSorted, Entries.lookup_cons_eq]
  | cons entry rest ih =>
      obtain ⟨found, value⟩ := entry
      rw [insertSorted, Entries.lookup_cons_eq]
      by_cases hfound : id = found
      · subst hfound
        rw [if_pos rfl, Entries.lookup_cons_eq]
        by_cases heq : id = other <;> simp [heq]
      · by_cases hlt : id.index < found.index
        · rw [if_neg hfound, if_pos hlt, Entries.lookup_cons_eq, Entries.lookup_cons_eq]
        · rw [if_neg hfound, if_neg hlt, Entries.lookup_cons_eq, ih]
          by_cases heq : id = other
          · subst heq
            simp [Ne.symm hfound]
          · simp [heq]

-- A slot has the qualifier of the last pair for it.
theorem get?_foldl_insert (pairs : List (SlotId × Qualifier)) (solution : Solution) (id : SlotId) :
    (pairs.foldl (fun s pair => s.insert pair.1 pair.2) solution).get? id =
      ((Entries.lastFor Prod.fst id pairs).map Prod.snd).or (solution.get? id) := by
  induction pairs generalizing solution with
  | nil => rfl
  | cons pair rest ih =>
      rw [List.foldl_cons, ih, get?_insert, Entries.lastFor_cons]
      by_cases heq : pair.1 = id
      · cases Entries.lastFor Prod.fst id rest <;> simp [heq]
      · simp [heq]

theorem get?_ofList (pairs : List (SlotId × Qualifier)) (id : SlotId) :
    (ofList pairs).get? id = (Entries.lastFor Prod.fst id pairs).map Prod.snd := by
  rw [ofList, get?_foldl_insert]
  exact Option.or_none

theorem mem_of_get?_ofList {pairs : List (SlotId × Qualifier)} {id : SlotId} {q : Qualifier}
    (h : (ofList pairs).get? id = some q) : (id, q) ∈ pairs := by
  rw [get?_ofList] at h
  obtain ⟨pair, hpair, rfl⟩ := Option.map_eq_some_iff.mp h
  obtain ⟨hmem, rfl⟩ := Entries.mem_of_lastFor hpair
  exact hmem

-- Pairs that agree with a choice of qualifiers leave that choice for the slots among them.
theorem get?_foldl_insert_of_agree {pairs : List (SlotId × Qualifier)}
    {choice : SlotId → Qualifier} (h : ∀ pair ∈ pairs, pair.2 = choice pair.1)
    (solution : Solution) (id : SlotId) :
    (pairs.foldl (fun s pair => s.insert pair.1 pair.2) solution).get? id =
      if id ∈ pairs.map Prod.fst then some (choice id) else solution.get? id := by
  rw [get?_foldl_insert]
  cases hlast : Entries.lastFor Prod.fst id pairs with
  | none =>
      have hid : id ∉ pairs.map Prod.fst := by
        intro hmem
        obtain ⟨pair, hpair, heq⟩ := List.mem_map.mp hmem
        exact Entries.lastFor_eq_none_iff.mp hlast pair hpair heq
      rw [if_neg hid]
      rfl
  | some pair =>
      obtain ⟨hmem, rfl⟩ := Entries.mem_of_lastFor hlast
      simp [h pair hmem, List.mem_map_of_mem hmem]

theorem mem_insertSorted {id : SlotId} {q : Qualifier} {entries : List (SlotId × Qualifier)}
    {entry : SlotId × Qualifier} (h : entry ∈ insertSorted id q entries) :
    entry = (id, q) ∨ entry ∈ entries := by
  induction entries with
  | nil => simpa [insertSorted] using h
  | cons first rest ih =>
      rw [insertSorted] at h
      split at h
      · rcases List.mem_cons.mp h with heq | hmem
        · exact .inl heq
        · exact .inr (List.mem_cons_of_mem _ hmem)
      · split at h
        · exact List.mem_cons.mp h
        · rcases List.mem_cons.mp h with heq | hmem
          · exact .inr (heq ▸ List.mem_cons_self)
          · exact (ih hmem).imp_right (List.mem_cons_of_mem _)

def Sorted (solution : Solution) : Prop :=
  solution.entries.Pairwise fun a b => a.1.index < b.1.index

-- An entry that is not in front comes after the first, the index being different.
theorem Sorted.insert {solution : Solution} (h : solution.Sorted) (id : SlotId) (q : Qualifier) :
    (solution.insert id q).Sorted := by
  obtain ⟨entries⟩ := solution
  simp only [Sorted, Solution.insert] at h ⊢
  induction h with
  | nil => exact List.pairwise_singleton _ _
  | @cons first rest hfirst hrest ih =>
      rw [insertSorted]
      split
      · next heq => exact .cons (heq ▸ hfirst) hrest
      · next hne =>
          split
          · next hlt =>
              refine .cons (fun entry hentry => ?_) (.cons hfirst hrest)
              rcases List.mem_cons.mp hentry with rfl | hmem
              · exact hlt
              · exact Nat.lt_trans hlt (hfirst entry hmem)
          · next hge =>
              have hlt : first.1.index < id.index :=
                Nat.lt_of_le_of_ne (Nat.le_of_not_lt hge) fun heq => hne (SlotId.eq_of_index heq.symm)
              refine .cons (fun entry hentry => ?_) ih
              rcases mem_insertSorted hentry with rfl | hmem
              · exact hlt
              · exact hfirst entry hmem

theorem sorted_ofList (pairs : List (SlotId × Qualifier)) : (ofList pairs).Sorted :=
  List.foldlRecOn pairs _ List.Pairwise.nil fun _ h pair _ => h.insert pair.1 pair.2

end Solution

namespace Interpretation

-- The solution that is left of an interpretation when it is forgotten which slots are present.
def solution (interpretation : Interpretation) (registry : Registry) : Solution :=
  ⟨registry.variableSlots.map fun id => (id, interpretation.choice id)⟩

theorem get?_solution {interpretation : Interpretation} {registry : Registry} {id : SlotId}
    (hid : id ∈ registry.variableSlots) :
    (interpretation.solution registry).get? id = some (interpretation.choice id) :=
  List.lookup_graph interpretation.choice hid

theorem keys_solution (interpretation : Interpretation) (registry : Registry) :
    (interpretation.solution registry).entries.map (·.1) = registry.variableSlots := by
  simp [solution, Function.comp_def]

structure Meets (interpretation : Interpretation) (registry : Registry)
    (constraints : List Constraint) : Prop where
  inRange : interpretation.InRange registry
  holds : ∀ c ∈ constraints, interpretation.eval registry c = true

structure Best (interpretation : Interpretation) (registry : Registry)
    (constraints : List Constraint) : Prop where
  meets : interpretation.Meets registry constraints
  least : ∀ other : Interpretation, other.Meets registry constraints →
    (interpretation.solution registry).cost constraints ≤ (other.solution registry).cost constraints

end Interpretation

end Qualify
