import Mathlib.Data.List.Induction
import Qualify.Constraint.Store
import Qualify.Proofs.Constraint.Sameness

namespace Qualify

namespace Constraint

def isStorable (c : Constraint) : Bool :=
  !c.isAlwaysTrue && !c.isAlwaysFalse

def weightFor? (subject goal : SlotId) : Constraint → Option Nat
  | preference subject' goal' _ weight _ =>
      if subject' = subject ∧ goal' = goal then some weight else none
  | _ => none

def lastWeight? (subject goal : SlotId) (added : List Constraint) : Option Nat :=
  (added.filterMap (weightFor? subject goal)).getLast?

def withEarlier (added : List Constraint) : List (List Constraint × Constraint) :=
  added.zipIdx.map fun entry => (added.take entry.2, entry.1)

def isNew (earlier : List Constraint) (c : Constraint) : Bool :=
  c.isStorable && !earlier.any (·.same c)

def firsts (added : List Constraint) : List Constraint :=
  ((withEarlier added).filter fun entry => isNew entry.1 entry.2).map (·.2)

-- What is kept for the first one of those that are the same. A preference is one of those that were
-- added, with the weight that was given last; everything else is kept as it was added first.
def Stands (added : List Constraint) : Constraint → Constraint → Prop
  | preference subject goal _ _ _, stored => stored ∈ added ∧ ∃ q weight location,
      stored = preference subject goal q weight location ∧
        lastWeight? subject goal added = some weight
  | first, stored => stored = first

theorem isStorable_congr {c d : Constraint} (h : c.same d = true) :
    c.isStorable = d.isStorable := by
  refine same_induction (motive := fun c d => c.isStorable = d.isStorable)
    rfl rfl ?_ ?_ ?_ ?_ ?_ ?_ h
  all_goals intros; rfl

theorem isAlwaysFalse_of_isStorable {c : Constraint} (h : c.isStorable = true) :
    c.isAlwaysFalse = false := by
  simp only [isStorable, Bool.and_eq_true, Bool.not_eq_true'] at h
  exact h.2

theorem isStorable_of_mem_firsts {added : List Constraint} {first : Constraint}
    (h : first ∈ firsts added) : first.isStorable = true := by
  obtain ⟨entry, hentry, rfl⟩ := List.mem_map.mp h
  have hnew := (List.mem_filter.mp hentry).2
  rw [isNew, Bool.and_eq_true] at hnew
  exact hnew.1

theorem mem_of_mem_firsts {added : List Constraint} {first : Constraint}
    (h : first ∈ firsts added) : first ∈ added := by
  obtain ⟨entry, hentry, rfl⟩ := List.mem_map.mp h
  obtain ⟨pair, hpair, rfl⟩ := List.mem_map.mp (List.mem_filter.mp hentry).1
  exact List.fst_mem_of_mem_zipIdx hpair

theorem withEarlier_append_singleton (added : List Constraint) (c : Constraint) :
    withEarlier (added ++ [c]) = withEarlier added ++ [(added, c)] := by
  have hbefore : ∀ entry ∈ added.zipIdx,
      ((added ++ [c]).take entry.2, entry.1) = (added.take entry.2, entry.1) := by
    intro entry hentry
    have hlt := List.snd_lt_of_mem_zipIdx hentry
    rw [List.take_append_of_le_length (by omega)]
  rw [withEarlier, List.zipIdx_append, List.map_append, List.map_congr_left hbefore]
  simp [withEarlier]

theorem firsts_append_singleton (added : List Constraint) (c : Constraint) :
    firsts (added ++ [c]) = firsts added ++ if isNew added c then [c] else [] := by
  rw [firsts, withEarlier_append_singleton, List.filter_append, List.map_append, ← firsts]
  split <;> simp [*]

theorem lastWeight?_append_singleton (subject goal : SlotId) (added : List Constraint)
    (c : Constraint) :
    lastWeight? subject goal (added ++ [c]) =
      (weightFor? subject goal c).or (lastWeight? subject goal added) := by
  rw [lastWeight?, List.filterMap_append, List.getLast?_append, lastWeight?]
  cases hweight : weightFor? subject goal c <;> simp [hweight]

section Stands

variable {added : List Constraint} {first stored c : Constraint}

theorem Stands.same (h : Stands added first stored) : first.same stored = true := by
  cases first with
  | preference subject goal q weight location =>
      obtain ⟨-, q', weight', location', rfl, -⟩ := h
      simp [Constraint.same]
  | _ =>
      cases h
      exact same_refl _

theorem stands_new (c : Constraint) (added : List Constraint) : Stands (added ++ [c]) c c := by
  cases c with
  | preference subject goal q weight location =>
      refine ⟨by simp, q, weight, location, rfl, ?_⟩
      simp [lastWeight?_append_singleton, weightFor?]
  | _ => rfl

-- Other constraints do not matter to what is stored.
theorem Stands.append_other (h : Stands added first stored) (hother : first.same c = false) :
    Stands (added ++ [c]) first stored := by
  cases first with
  | preference subject goal q weight location =>
      obtain ⟨hmem, q', weight', location', rfl, hlast⟩ := h
      refine ⟨List.mem_append_left _ hmem, q', weight', location', rfl, ?_⟩
      have hnone : weightFor? subject goal c = none := by
        cases c with
        | preference subject' goal' q'' weight'' location'' =>
            have hne : ¬(subject' = subject ∧ goal' = goal) := by
              rintro ⟨rfl, rfl⟩
              simp [Constraint.same] at hother
            exact if_neg hne
        | _ => rfl
      rw [lastWeight?_append_singleton, hnone, Option.none_or, hlast]
  | _ => exact h

-- Only a preference is replaced, and only when its weight changes.
theorem Stands.append_same (h : Stands added first stored) (hsame : first.same c = true) :
    Stands (added ++ [c]) first (if ConstraintStore.reweighted stored c then c else stored) := by
  cases first with
  | preference subject goal q weight location =>
      obtain ⟨hmem, q', weight', location', rfl, hlast⟩ := h
      cases c with
      | preference subject' goal' q'' weight'' location'' =>
          simp only [Constraint.same, Bool.and_eq_true, beq_iff_eq] at hsame
          obtain ⟨rfl, rfl⟩ := hsame
          have hweight : lastWeight? subject goal
              (added ++ [preference subject goal q'' weight'' location'']) = some weight'' := by
            simp [lastWeight?_append_singleton, weightFor?]
          split
          · exact ⟨by simp, q'', weight'', location'', rfl, hweight⟩
          · rename_i hequal
            have heq : weight' = weight'' := by
              simpa [ConstraintStore.reweighted] using hequal
            exact ⟨by simp [hmem], q', weight', location', rfl, heq ▸ hweight⟩
      | _ => cases hsame
  | _ =>
      cases h
      rfl

end Stands

end Constraint

namespace ConstraintStore

open Constraint

def addAll (store : ConstraintStore) :
    List Constraint → List (Except ConstraintError Bool) × ConstraintStore
  | [] => ([], store)
  | c :: rest =>
      let (answer, next) := store.add c
      let (answers, last) := next.addAll rest
      (answer :: answers, last)

def verdict (earlier : List Constraint) (c : Constraint) : Except ConstraintError Bool :=
  if c.isAlwaysFalse then .error (.unsatisfiable "false" .missing) else .ok (isNew earlier c)

-- An index that compares only entries of the same hash.
def positionByHash? (store : ConstraintStore) (hash : List DigestItem → UInt64) (c : Constraint) :
    Option Nat :=
  ((store.index.filter fun entry => hash entry.1.digest == hash c.digest).find? fun entry =>
    entry.1.same c).map (·.2)

theorem positionByHash?_eq (store : ConstraintStore) (hash : List DigestItem → UInt64)
    (c : Constraint) : store.positionByHash? hash c = store.position? c := by
  rw [positionByHash?, position?, List.find?_filter]
  congr 2
  funext entry
  cases hsame : entry.1.same c with
  | false => simp
  | true => simp [digest_eq_of_same hsame]

theorem addAll_append_singleton (store : ConstraintStore) (added : List Constraint)
    (c : Constraint) : store.addAll (added ++ [c]) =
      ((store.addAll added).1 ++ [((store.addAll added).2.add c).1],
        ((store.addAll added).2.add c).2) := by
  induction added generalizing store with
  | nil => rfl
  | cons first rest ih => simp only [List.cons_append, addAll, ih]

-- A preference that is stored again takes the place of the old one, if it has another weight.
def refresh (c stored : Constraint) : Constraint :=
  if reweighted stored c then c else stored

theorem refresh_same {c stored d : Constraint} (hsame : stored.same c = true) :
    (refresh c stored).same d = true ↔ stored.same d = true := by
  unfold refresh
  split
  · exact ⟨fun hc => same_trans hsame hc, fun hd => same_trans (same_symm hsame) hd⟩
  · exact Iff.rfl

-- A stored constraint is replaced only if its weight changed, so that the first wording is kept.
theorem modify_refresh (constraints : Array Constraint) (i : Nat) (c : Constraint) :
    constraints.modify i (refresh c) =
      if (constraints[i]?).any (reweighted · c) then constraints.setIfInBounds i c
      else constraints := by
  apply Array.ext_getElem?
  intro j
  rw [Array.getElem?_modify]
  by_cases hij : i = j
  · subst hij
    cases hstored : constraints[i]? with
    | none => simp [hstored]
    | some stored =>
        have hlt : i < constraints.size := (Array.getElem?_eq_some_iff.mp hstored).1
        by_cases hweight : reweighted stored c = true
        · simp [refresh, hweight, hlt]
        · simp [refresh, hweight, hstored]
  · by_cases hweight : (constraints[i]?).any (reweighted · c) = true <;> simp [hij, hweight]

def push (store : ConstraintStore) (c : Constraint) : ConstraintStore :=
  ⟨store.constraints.push c, (c, store.constraints.size) :: store.index⟩

theorem position?_push (store : ConstraintStore) (c d : Constraint) :
    (store.push c).position? d =
      if c.same d then some store.constraints.size else store.position? d := by
  by_cases hsame : c.same d = true <;> simp [push, position?, hsame]

-- A constraint that was not known is put behind the others, and one that was known stays in its
-- place.
theorem add_cases (store : ConstraintStore) (c : Constraint) :
    (c.isStorable = false ∧ store.add c = (verdict [] c, store)) ∨
      (c.isStorable = true ∧ store.position? c = none ∧
        store.add c = (.ok true, store.push c)) ∨
      (c.isStorable = true ∧ ∃ i, store.position? c = some i ∧
        store.add c = (.ok false, ⟨store.constraints.modify i (refresh c), store.index⟩)) := by
  by_cases hstorable : c.isStorable = true
  · obtain ⟨htrue, hfalse⟩ : c.isAlwaysTrue = false ∧ c.isAlwaysFalse = false := by
      simpa [isStorable] using hstorable
    cases hposition : store.position? c with
    | none =>
        refine .inr (.inl ⟨hstorable, rfl, ?_⟩)
        simp [add, push, htrue, hfalse, hposition]
    | some i =>
        refine .inr (.inr ⟨hstorable, i, rfl, ?_⟩)
        rw [modify_refresh]
        by_cases hweight : (store.constraints[i]?).any (reweighted · c) = true <;>
          simp [add, htrue, hfalse, hposition, hweight]
  · refine .inl ⟨by simpa using hstorable, ?_⟩
    cases c with
    | alwaysTrue => rfl
    | alwaysFalse => rfl
    | _ => exact absurd rfl hstorable

-- What a store holds after the additions of some constraints.
structure Records (added : List Constraint) (store : ConstraintStore) : Prop where
  size_eq : store.constraints.size = (firsts added).length
  stands : ∀ (i : Nat) (first stored : Constraint), (firsts added)[i]? = some first →
    store.constraints[i]? = some stored → Stands added first stored
  isSome_position? : ∀ c : Constraint, c.isStorable = true →
    (store.position? c).isSome = added.any (·.same c)
  position?_eq_some : ∀ (c : Constraint) (i : Nat), store.position? c = some i ↔
    ∃ stored, store.constraints[i]? = some stored ∧ stored.same c = true

theorem empty_records : Records [] empty where
  size_eq := rfl
  stands := by simp [empty]
  isSome_position? := by simp [empty, position?]
  position?_eq_some := by simp [empty, position?]

section Step

variable {added : List Constraint} {store : ConstraintStore} (h : Records added store)
  {c : Constraint}
include h

theorem Records.isNew_eq (hstorable : c.isStorable = true) :
    isNew added c = (store.position? c).isNone := by
  rw [isNew, hstorable, Bool.true_and, ← h.isSome_position? c hstorable]
  cases store.position? c <;> rfl

-- Constraints that are the same are found at the same position.
theorem Records.position?_congr {d : Constraint} (hsame : c.same d = true) :
    store.position? c = store.position? d := by
  apply Option.ext
  intro i
  rw [h.position?_eq_some, h.position?_eq_some]
  refine exists_congr fun stored => and_congr_right fun _ => ?_
  exact ⟨fun hc => same_trans hc hsame, fun hd => same_trans hd (same_symm hsame)⟩

-- What is stored at a position is found there by what comes first.
theorem Records.position?_first {i : Nat} {first stored : Constraint}
    (hfirst : (firsts added)[i]? = some first) (hstored : store.constraints[i]? = some stored) :
    store.position? first = some i := by
  have hsame := (h.stands i first stored hfirst hstored).same
  exact (h.position?_eq_some first i).mpr ⟨stored, hstored, same_symm hsame⟩

-- A constraint that is not stored is the same as no stored one.
theorem Records.append_unstorable (hstorable : c.isStorable = false) :
    Records (added ++ [c]) store := by
  have hfirsts : firsts (added ++ [c]) = firsts added := by
    simp [firsts_append_singleton, isNew, hstorable]
  have hother : ∀ d : Constraint, d.isStorable = true → d.same c = false := by
    intro d hd
    by_contra hsame
    rw [isStorable_congr (by simpa using hsame), hstorable] at hd
    cases hd
  refine ⟨hfirsts ▸ h.size_eq, fun i first stored hfirst hstored => ?_, fun d hd => ?_,
    h.position?_eq_some⟩
  · rw [hfirsts] at hfirst
    have hd := isStorable_of_mem_firsts (List.mem_of_getElem? hfirst)
    exact (h.stands i first stored hfirst hstored).append_other (hother first hd)
  · rw [h.isSome_position? d hd, List.any_append]
    simp [same_comm c d, hother d hd]

theorem Records.other_of_new (hnew : store.position? c = none) {d : Constraint} {i : Nat}
    (hd : store.position? d = some i) : d.same c = false := by
  by_contra hsame
  rw [h.position?_congr (by simpa using hsame), hnew] at hd
  cases hd

-- The new entry is found only under what is the same as it, and none of these was known before.
theorem Records.position?_push_eq_some (hnew : store.position? c = none) (d : Constraint)
    (i : Nat) : (store.push c).position? d = some i ↔
      ∃ stored, (store.push c).constraints[i]? = some stored ∧ stored.same d = true := by
  rw [position?_push]
  simp only [push, Array.getElem?_push]
  by_cases hi : i = store.constraints.size
  · have hnone : store.position? d ≠ some i := by
      intro hd
      obtain ⟨stored, hstored, -⟩ := (h.position?_eq_some d i).mp hd
      have hlt := (Array.getElem?_eq_some_iff.mp hstored).1
      omega
    by_cases hsame : c.same d = true <;> simp [hsame, hi, hi ▸ hnone]
  · rw [if_neg hi, ← h.position?_eq_some]
    by_cases hsame : c.same d = true
    · rw [if_pos hsame, ← h.position?_congr hsame, hnew]
      simp [Ne.symm hi]
    · rw [if_neg hsame]

-- The new constraint is the last of the firsts; nothing stored before is the same as it.
theorem Records.append_new (hstorable : c.isStorable = true) (hnew : store.position? c = none) :
    Records (added ++ [c]) (store.push c) := by
  have hfirsts : firsts (added ++ [c]) = firsts added ++ [c] := by
    simp [firsts_append_singleton, h.isNew_eq hstorable, hnew]
  refine ⟨by simp [hfirsts, push, h.size_eq], fun i first stored hfirst hstored => ?_,
    fun d hd => ?_, h.position?_push_eq_some hnew⟩
  · rw [hfirsts] at hfirst
    rw [push, Array.getElem?_push] at hstored
    by_cases hi : i = store.constraints.size
    · rw [if_pos hi] at hstored
      rw [hi, h.size_eq, List.getElem?_concat_length] at hfirst
      cases hstored
      cases hfirst
      exact stands_new c added
    · rw [if_neg hi] at hstored
      have hlt := (Array.getElem?_eq_some_iff.mp hstored).1
      rw [List.getElem?_append_left (by rwa [← h.size_eq])] at hfirst
      exact (h.stands i first stored hfirst hstored).append_other
        (h.other_of_new hnew (h.position?_first hfirst hstored))
  · rw [position?_push, List.any_append, ← h.isSome_position? d hd]
    by_cases hsame : c.same d = true <;> simp [hsame]

-- The index does not change; the entry at `i` may take over the new weight, and stays the same as
-- it was under `same`.
theorem Records.append_known (hstorable : c.isStorable = true) {i : Nat}
    (hknown : store.position? c = some i) :
    Records (added ++ [c]) ⟨store.constraints.modify i (refresh c), store.index⟩ := by
  have hfirsts : firsts (added ++ [c]) = firsts added := by
    simp [firsts_append_singleton, h.isNew_eq hstorable, hknown]
  have hposition : ∀ d : Constraint,
      position? ⟨store.constraints.modify i (refresh c), store.index⟩ d = store.position? d :=
    fun _ => rfl
  obtain ⟨old, hold, hsame⟩ := (h.position?_eq_some c i).mp hknown
  constructor
  · rw [Array.size_modify, hfirsts, h.size_eq]
  · intro j first stored hfirst hstored
    rw [hfirsts] at hfirst
    rw [Array.getElem?_modify] at hstored
    by_cases hij : i = j
    · subst hij
      rw [if_pos rfl, hold] at hstored
      cases hstored
      have hstands := h.stands i first old hfirst hold
      exact hstands.append_same (same_trans hstands.same hsame)
    · rw [if_neg hij] at hstored
      have hplace := h.position?_first hfirst hstored
      refine (h.stands j first stored hfirst hstored).append_other ?_
      by_contra hfirst'
      rw [h.position?_congr (by simpa using hfirst'), hknown] at hplace
      exact hij (Option.some.inj hplace)
  · intro d hd
    rw [hposition, List.any_append, ← h.isSome_position? d hd]
    by_cases hcd : c.same d = true
    · rw [← h.position?_congr hcd, hknown, Option.isSome_some, Bool.true_or]
    · simp [hcd]
  · intro d j
    rw [hposition, h.position?_eq_some, Array.getElem?_modify]
    by_cases hij : i = j
    · subst hij
      simp [hold, refresh_same hsame]
    · rw [if_neg hij]

end Step

theorem Records.add {added : List Constraint} {store : ConstraintStore} (h : Records added store)
    (c : Constraint) : Records (added ++ [c]) (store.add c).2 := by
  rcases add_cases store c with ⟨hstorable, heq⟩ | ⟨hstorable, hnew, heq⟩ |
    ⟨hstorable, i, hknown, heq⟩
  · rw [heq]
    exact h.append_unstorable hstorable
  · rw [heq]
    exact h.append_new hstorable hnew
  · rw [heq]
    exact h.append_known hstorable hknown

theorem Records.answer {added : List Constraint} {store : ConstraintStore}
    (h : Records added store) (c : Constraint) : (store.add c).1 = verdict added c := by
  have hanswer : c.isStorable = true → verdict added c = .ok (store.position? c).isNone := by
    intro hstorable
    rw [verdict, isAlwaysFalse_of_isStorable hstorable, if_neg Bool.false_ne_true, h.isNew_eq hstorable]
  rcases add_cases store c with ⟨hstorable, heq⟩ | ⟨hstorable, hnew, heq⟩ |
    ⟨hstorable, i, hknown, heq⟩
  · rw [heq, verdict, verdict, isNew, isNew, hstorable]
    rfl
  · rw [heq, hanswer hstorable, hnew]
    rfl
  · rw [heq, hanswer hstorable, hknown]
    rfl

theorem records_addAll (added : List Constraint) : Records added (empty.addAll added).2 := by
  induction added using List.reverseRecOn with
  | nil => exact empty_records
  | append_singleton added c ih =>
      rw [addAll_append_singleton]
      exact ih.add c

theorem answers_addAll (added : List Constraint) :
    (empty.addAll added).1 = (withEarlier added).map fun entry => verdict entry.1 entry.2 := by
  induction added using List.reverseRecOn with
  | nil => rfl
  | append_singleton added c ih =>
      rw [addAll_append_singleton, withEarlier_append_singleton, List.map_append, ih,
        (records_addAll added).answer c]
      rfl

-- Whatever is added to an empty store, it holds the first ones of those that are the same, in the
-- order in which they came, and preferences with their last weights. An addition says whether the
-- constraint was new, and the index leads to each constraint, by whatever hash it looks.
theorem addAll_empty (added : List Constraint) :
    ∃ answers store, empty.addAll added = (answers, store) ∧
      List.Forall₂ (Stands added) (firsts added) store.constraints.toList ∧
      answers = (withEarlier added).map (fun entry => verdict entry.1 entry.2) ∧
      store.add .alwaysFalse = (.error (.unsatisfiable "false" .missing), store) ∧
      ∀ (c : Constraint) (i : Nat) (hash : List DigestItem → UInt64),
        store.positionByHash? hash c = some i ↔
          ∃ stored, store.constraints[i]? = some stored ∧ stored.same c = true := by
  have h := records_addAll added
  refine ⟨_, _, rfl, ?_, answers_addAll added, rfl, fun c i hash => ?_⟩
  · refine List.forall₂_iff_get.mpr ⟨by simp [h.size_eq], fun i hfirst hstored => ?_⟩
    refine h.stands i _ _ (List.getElem?_eq_getElem hfirst) ?_
    simp
  · rw [positionByHash?_eq]
    exact h.position?_eq_some c i

-- A preference keeps its first place and takes its last weight.
example :
    (empty.addAll [.preference Registry.sinkSlot Registry.taintedSlot 0 1 .missing,
      .relation .equality Registry.sourceSlot Registry.sinkSlot .missing,
      .relation .equality Registry.sinkSlot Registry.sourceSlot .missing,
      .preference Registry.sinkSlot Registry.taintedSlot 0 5 .missing]).2.constraints.toList =
      [.preference Registry.sinkSlot Registry.taintedSlot 0 5 .missing,
        .relation .equality Registry.sourceSlot Registry.sinkSlot .missing] :=
  rfl

end ConstraintStore

end Qualify
