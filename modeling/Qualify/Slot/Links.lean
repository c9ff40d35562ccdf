import Qualify.Slot.Id

namespace Qualify

-- Links between slots in the order in which they were made.
abbrev Links := List (SlotId × SlotId)

namespace Links

def leaving (links : Links) (source : SlotId) : Links :=
  links.filter fun link => link.1 == source

def without (links : Links) (source : SlotId) : Links :=
  links.filter fun link => !(link.1 == source)

def targets (links : Links) (source : SlotId) : List SlotId :=
  (links.leaving source).map (·.2)

-- To visit a slot is to use up its links, or to be done with it when it has none.
theorem visit_decreases (links : Links) (source : SlotId) (rest : List SlotId) :
    Prod.Lex (· < ·) (· < ·)
      ((links.without source).length, (links.targets source ++ rest).length)
      (links.length, (source :: rest).length) := by
  by_cases h : links.leaving source = []
  · have hsame : links.without source = links := by
      refine List.filter_eq_self.mpr fun link hlink => ?_
      simpa using List.filter_eq_nil_iff.mp h link hlink
    rw [hsame, targets, h]
    exact Prod.Lex.right _ (by simp)
  · obtain ⟨link, hlink⟩ := List.exists_mem_of_ne_nil _ h
    have hmem := List.mem_filter.mp hlink
    refine Prod.Lex.left _ _ (Nat.lt_of_le_of_ne (List.length_filter_le _ _) fun heq => ?_)
    have hall := List.length_filter_eq_length_iff.mp heq link hmem.1
    simp [hmem.2] at hall

def reachesFrom (links : Links) (goal : SlotId) (pending : List SlotId) : Bool :=
  match pending with
  | [] => false
  | source :: rest =>
      (links.targets source).contains goal ||
        reachesFrom (links.without source) goal (links.targets source ++ rest)
termination_by (links.length, pending.length)
decreasing_by exact visit_decreases links source rest

-- Whether a non-empty chain of links leads from the one slot to the other.
def reaches (links : Links) (source goal : SlotId) : Bool :=
  reachesFrom links goal [source]

end Links

end Qualify
