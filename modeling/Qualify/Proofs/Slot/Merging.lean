import Qualify.Proofs.Slot.Adjacency

namespace Qualify

namespace Links

def Link (links : Links) (source target : SlotId) : Prop :=
  (source, target) ∈ links

theorem link_without_iff {links : Links} {hidden source target : SlotId} :
    Link (links.without hidden) source target ↔ links.Link source target ∧ source ≠ hidden := by
  simp [Link, without]

-- A chain that passes through a slot can be cut where it leaves the slot for the last time.
theorem transGen_without (hidden : SlotId) {links : Links} {source goal : SlotId}
    (h : Relation.TransGen links.Link source goal) :
    (source ≠ hidden ∧ Relation.TransGen (links.without hidden).Link source goal) ∨
      ∃ target, links.Link hidden target ∧
        Relation.ReflTransGen (links.without hidden).Link target goal := by
  induction h using Relation.TransGen.head_induction_on with
  | @single source hlink =>
      by_cases hsource : source = hidden
      · subst hsource
        exact .inr ⟨goal, hlink, .refl⟩
      · exact .inl ⟨hsource, .single (link_without_iff.mpr ⟨hlink, hsource⟩)⟩
  | @head source target hlink _ ih =>
      rcases ih with ⟨-, hchain⟩ | hcut
      · by_cases hsource : source = hidden
        · subst hsource
          exact .inr ⟨target, hlink, hchain.to_reflTransGen⟩
        · exact .inl ⟨hsource, .head (link_without_iff.mpr ⟨hlink, hsource⟩) hchain⟩
      · exact .inr hcut

-- To visit a slot uses up its links, but what can be reached from there is pending afterwards.
theorem reachesFrom_iff (links : Links) (goal : SlotId) (pending : List SlotId) :
    reachesFrom links goal pending = true ↔
      ∃ source ∈ pending, Relation.TransGen links.Link source goal := by
  induction links, pending using reachesFrom.induct with
  | case1 links => simp [reachesFrom]
  | case2 links source rest ih =>
      rw [reachesFrom, Bool.or_eq_true, ih, List.contains_iff_mem, mem_targets]
      constructor
      · rintro (hlink | ⟨next, hnext, hchain⟩)
        · exact ⟨source, List.mem_cons_self, .single hlink⟩
        · have hchain := Relation.TransGen.mono (fun _ _ h => (link_without_iff.mp h).1) _ _ hchain
          rcases List.mem_append.mp hnext with htarget | hrest
          · exact ⟨source, List.mem_cons_self, .head (mem_targets.mp htarget) hchain⟩
          · exact ⟨next, List.mem_cons_of_mem _ hrest, hchain⟩
      · rintro ⟨next, hnext, hchain⟩
        rcases transGen_without source hchain with ⟨hne, hchain⟩ | ⟨target, hlink, hchain⟩
        · have hrest := (List.mem_cons.mp hnext).resolve_left hne
          exact .inr ⟨next, List.mem_append_right _ hrest, hchain⟩
        · rcases Relation.reflTransGen_iff_eq_or_transGen.mp hchain with rfl | hchain
          · exact .inl hlink
          · exact .inr ⟨target, List.mem_append_left _ (mem_targets.mpr hlink), hchain⟩

end Links

structure Walk where
  visited : Array Bool
  pending : List SlotId

namespace Walk

-- What can come of looking at the slots that are next. A flag that is not there is out of range.
inductive Step where
  | outOfRange
  | found
  | ready (walk : Walk)

def visit (walk : Walk) (id : SlotId) : Walk :=
  ⟨walk.visited.setIfInBounds id.index true, id :: walk.pending⟩

def look (goal : SlotId) : List SlotId → Walk → Step
  | [], walk => .ready walk
  | next :: rest, walk =>
      if next = goal then .found
      else match walk.visited[next.index]? with
        | none => .outOfRange
        | some true => look goal rest walk
        | some false => look goal rest (walk.visit next)

def size (walk : Walk) : Nat :=
  walk.visited.count false + walk.pending.length

def Visited (walk : Walk) (id : SlotId) : Prop :=
  walk.visited[id.index]? = some true

section Visit

variable {walk : Walk} {id : SlotId} (hfresh : walk.visited[id.index]? = some false)
include hfresh

theorem visited_visit {other : SlotId} :
    (walk.visit id).Visited other ↔ walk.Visited other ∨ other = id := by
  have hlt : id.index < walk.visited.size := (Array.getElem?_eq_some_iff.mp hfresh).1
  unfold Visited visit
  rw [Array.getElem?_setIfInBounds]
  by_cases hid : other = id
  · simp [hid, hlt]
  · have hindex : id.index ≠ other.index := fun h => hid (SlotId.eq_of_index h.symm)
    simp [hid, hindex]

-- What goes on the stack is no longer to be put there.
theorem size_visit : (walk.visit id).size = walk.size := by
  obtain ⟨hlt, hflag⟩ := Array.getElem?_eq_some_iff.mp hfresh
  have hpos := Array.boole_getElem_le_count (a := false) hlt
  have hcount := Array.count_set (a := true) (b := false) hlt
  simp only [hflag, BEq.rfl, if_true] at hpos hcount
  simp only [size, visit, Array.setIfInBounds, dif_pos hlt, hcount, List.length_cons]
  simp
  omega

end Visit

theorem size_of_look {goal : SlotId} {nexts : List SlotId} {walk later : Walk}
    (h : look goal nexts walk = .ready later) : later.size = walk.size := by
  induction nexts generalizing walk with
  | nil =>
      cases h
      rfl
  | cons next rest ih =>
      unfold look at h
      split at h
      · cases h
      · split at h
        · cases h
        · exact ih h
        · rename_i hfresh
          exact (ih h).trans (size_visit hfresh)

theorem size_lt_of_look {goal source : SlotId} {nexts rest : List SlotId} {visited : Array Bool}
    {later : Walk} (h : look goal nexts ⟨visited, rest⟩ = .ready later) :
    later.size < size ⟨visited, source :: rest⟩ := by
  rw [size_of_look h]
  simp [size]

def run (nextsOf : SlotId → List SlotId) (goal : SlotId) : Walk → Option Bool
  | ⟨_, []⟩ => some false
  | ⟨visited, source :: rest⟩ =>
      match _hlook : look goal (nextsOf source) ⟨visited, rest⟩ with
      | .outOfRange => none
      | .found => some true
      | .ready later => run nextsOf goal later
termination_by walk => walk.size
decreasing_by exact size_lt_of_look _hlook

-- All slots that are next have been visited now, and are pending if they had not been before.
structure Looked (goal : SlotId) (nexts : List SlotId) (walk later : Walk) : Prop where
  goal_notMem : goal ∉ nexts
  visited_iff : ∀ id, later.Visited id ↔ walk.Visited id ∨ id ∈ nexts
  pending_iff : ∀ id, id ∈ later.pending ↔
    id ∈ walk.pending ∨ id ∈ nexts ∧ ¬walk.Visited id
  size_eq : later.visited.size = walk.visited.size

section Looked

variable {goal next : SlotId} {rest : List SlotId} {walk later : Walk}

theorem Looked.of_visited (hgoal : next ≠ goal) (hvisited : walk.Visited next)
    (h : Looked goal rest walk later) : Looked goal (next :: rest) walk later := by
  refine ⟨by simp [hgoal.symm, h.goal_notMem], fun id => ?_, fun id => ?_, h.size_eq⟩
  · rw [h.visited_iff, List.mem_cons]
    by_cases hid : id = next <;> simp [hid, hvisited]
  · rw [h.pending_iff, List.mem_cons]
    by_cases hid : id = next <;> simp [hid, hvisited]

theorem Looked.of_fresh (hgoal : next ≠ goal) (hfresh : walk.visited[next.index]? = some false)
    (h : Looked goal rest (walk.visit next) later) : Looked goal (next :: rest) walk later := by
  have hnot : ¬walk.Visited next := by simp [Visited, hfresh]
  refine ⟨by simp [hgoal.symm, h.goal_notMem], fun id => ?_, fun id => ?_, ?_⟩
  · rw [h.visited_iff, visited_visit hfresh, List.mem_cons, or_assoc]
  · rw [h.pending_iff, visited_visit hfresh, visit, List.mem_cons, List.mem_cons]
    by_cases hid : id = next <;> simp [hid, hnot]
  · rw [h.size_eq, visit, Array.size_setIfInBounds]

end Looked

-- A neighbour is the goal, or was visited before, or is visited now; the table covers all of
-- them.
theorem look_cases (goal : SlotId) (walk : Walk) {nexts : List SlotId}
    (hrange : ∀ next ∈ nexts, next.index < walk.visited.size) :
    look goal nexts walk = .found ∧ goal ∈ nexts ∨
      ∃ later, look goal nexts walk = .ready later ∧ Looked goal nexts walk later := by
  induction nexts generalizing walk with
  | nil => exact .inr ⟨walk, rfl, by simp, by simp, by simp, rfl⟩
  | cons next rest ih =>
      obtain ⟨hnext, hrest⟩ := List.forall_mem_cons.mp hrange
      unfold look
      by_cases hgoal : next = goal
      · exact .inl ⟨if_pos hgoal, hgoal ▸ List.mem_cons_self⟩
      · rw [if_neg hgoal]
        split
        · rename_i hflag
          rw [Array.getElem?_eq_none_iff] at hflag
          omega
        · rename_i hflag
          rcases ih walk hrest with ⟨hfound, hmem⟩ | ⟨later, hlater, hlooked⟩
          · exact .inl ⟨hfound, List.mem_cons_of_mem _ hmem⟩
          · exact .inr ⟨later, hlater, hlooked.of_visited hgoal hflag⟩
        · rename_i hflag
          have hrest' : ∀ other ∈ rest, other.index < (walk.visit next).visited.size := by
            simpa [visit] using hrest
          rcases ih (walk.visit next) hrest' with ⟨hfound, hmem⟩ | ⟨later, hlater, hlooked⟩
          · exact .inl ⟨hfound, List.mem_cons_of_mem _ hmem⟩
          · exact .inr ⟨later, hlater, hlooked.of_fresh hgoal hflag⟩

-- What is pending can be reached. A slot that is done with leads to visited slots only, and not to
-- the goal.
structure Explores (nextsOf : SlotId → List SlotId) (start goal : SlotId) (walk : Walk) : Prop where
  reached : ∀ id ∈ walk.pending, Relation.ReflTransGen (fun a b => b ∈ nextsOf a) start id
  finished : ∀ id, id = start ∨ walk.Visited id → id ∉ walk.pending →
    ∀ next ∈ nextsOf id, next ≠ goal ∧ walk.Visited next

section Explores

variable {nextsOf : SlotId → List SlotId} {start goal : SlotId}

theorem explores_start (size : Nat) :
    Explores nextsOf start goal ⟨Array.replicate size false, [start]⟩ := by
  have hnone : ∀ id, ¬Visited ⟨Array.replicate size false, [start]⟩ id := by
    intro id hvisited
    simp [Visited, Array.getElem?_replicate] at hvisited
  constructor
  · intro id hid
    rw [List.mem_singleton.mp hid]
  · intro id hid hpending
    exact absurd (List.mem_singleton.mpr (hid.resolve_right (hnone id))) hpending

-- The invariant of the search: what is visited and no longer pending has all its neighbours
-- visited, none of them the goal.
theorem Explores.step {source : SlotId} {rest : List SlotId} {visited : Array Bool} {later : Walk}
    (h : Explores nextsOf start goal ⟨visited, source :: rest⟩)
    (hlooked : Looked goal (nextsOf source) ⟨visited, rest⟩ later) :
    Explores nextsOf start goal later := by
  constructor
  · intro id hid
    rcases (hlooked.pending_iff id).mp hid with hrest | ⟨hnext, -⟩
    · exact h.reached id (List.mem_cons_of_mem _ hrest)
    · exact (h.reached source List.mem_cons_self).tail hnext
  · intro id hid hpending next hnext
    by_cases hsource : id = source
    · subst hsource
      exact ⟨fun hgoal => hlooked.goal_notMem (hgoal ▸ hnext),
        (hlooked.visited_iff next).mpr (.inr hnext)⟩
    · -- The slot was done with before, as it would be pending if it had just been visited.
      have hbefore : id = start ∨ Visited ⟨visited, source :: rest⟩ id := by
        rcases hid with hstart | hvisited
        · exact .inl hstart
        · rcases (hlooked.visited_iff id).mp hvisited with hold | hnew
          · exact .inr hold
          · by_contra hnot
            exact hpending ((hlooked.pending_iff id).mpr (.inr ⟨hnew, fun h => hnot (.inr h)⟩))
      have hdone : id ∉ source :: rest := by
        intro hmem
        have hrest := (List.mem_cons.mp hmem).resolve_left hsource
        exact hpending ((hlooked.pending_iff id).mpr (.inl hrest))
      obtain ⟨hgoal, hvisited⟩ := h.finished id hbefore hdone next hnext
      exact ⟨hgoal, (hlooked.visited_iff next).mpr (.inl hvisited)⟩

-- Once nothing is pending, the visited slots are closed and the goal is not among them.
theorem Explores.not_reached {visited : Array Bool}
    (h : Explores nextsOf start goal ⟨visited, []⟩) :
    ¬Relation.TransGen (fun a b => b ∈ nextsOf a) start goal := by
  have hclosed : ∀ id, Relation.ReflTransGen (fun a b => b ∈ nextsOf a) start id →
      id = start ∨ Visited ⟨visited, []⟩ id := by
    intro id hreached
    induction hreached with
    | refl => exact .inl rfl
    | tail _ hnext ih => exact .inr (h.finished _ ih List.not_mem_nil _ hnext).2
  intro hchain
  obtain ⟨last, hreached, hnext⟩ := Relation.TransGen.tail'_iff.mp hchain
  exact (h.finished last (hclosed last hreached) List.not_mem_nil goal hnext).1 rfl

-- All flags are there, so that the search ends with the right answer.
theorem Explores.run {walk : Walk} (h : Explores nextsOf start goal walk)
    (hrange : ∀ id, ∀ next ∈ nextsOf id, next.index < walk.visited.size) :
    walk.run nextsOf goal = some true ∧ Relation.TransGen (fun a b => b ∈ nextsOf a) start goal ∨
      walk.run nextsOf goal = some false ∧
        ¬Relation.TransGen (fun a b => b ∈ nextsOf a) start goal := by
  induction walk using Walk.run.induct nextsOf goal with
  | case1 visited =>
      refine .inr ⟨?_, h.not_reached⟩
      rw [Walk.run]
  | case2 visited source rest hlook =>
      rcases look_cases goal ⟨visited, rest⟩ (hrange source) with ⟨hfound, -⟩ | ⟨later, hready, -⟩
      · cases hlook.symm.trans hfound
      · cases hlook.symm.trans hready
  | case3 visited source rest hlook =>
      rcases look_cases goal ⟨visited, rest⟩ (hrange source) with ⟨-, hmem⟩ | ⟨later, hready, -⟩
      · refine .inl ⟨?_, .tail' (h.reached source List.mem_cons_self) hmem⟩
        rw [Walk.run, hlook]
      · cases hlook.symm.trans hready
  | case4 visited source rest later hlook ih =>
      rcases look_cases goal ⟨visited, rest⟩ (hrange source) with
        ⟨hfound, -⟩ | ⟨later', hready, hlooked⟩
      · cases hlook.symm.trans hfound
      · cases hlook.symm.trans hready
        rw [Walk.run, hlook]
        exact ih (h.step hlooked) fun id next hnext => hlooked.size_eq ▸ hrange id next hnext

end Explores

end Walk

namespace Registry

def walkMerges (registry : Registry) (source goal : SlotId) : Option Bool :=
  Walk.run registry.mergedTo goal ⟨Array.replicate registry.slots.size false, [source]⟩

theorem link_merges_eq (registry : Registry) :
    registry.merges.Link = fun operand id => id ∈ registry.mergedTo operand := by
  funext operand id
  exact propext Links.mem_targets.symm

theorem isMergedTo_iff_link (registry : Registry) (source goal : SlotId) :
    registry.isMergedTo source goal = true ↔
      Relation.TransGen registry.merges.Link source goal := by
  rw [isMergedTo, Links.reaches, Links.reachesFrom_iff]
  simp

section Merged

variable {registry : Registry} (hlinked : registry.Linked) (hinterned : registry.Interned)
include hlinked hinterned

theorem isMergedTo_iff (source goal : SlotId) :
    registry.isMergedTo source goal = true ↔
      Relation.TransGen registry.MergedInto source goal := by
  have hlink : registry.merges.Link = registry.MergedInto := by
    rw [link_merges_eq]
    funext operand id
    exact propext (mem_mergedTo hlinked hinterned)
  rw [isMergedTo_iff_link, hlink]

theorem walkMerges_eq (source goal : SlotId) :
    registry.walkMerges source goal = some (registry.isMergedTo source goal) := by
  have hrange : ∀ id, ∀ next ∈ registry.mergedTo id,
      next.index < (Array.replicate registry.slots.size false).size := by
    intro id next hnext
    obtain ⟨slot, left, right, hget, -⟩ := (mem_mergedTo hlinked hinterned).mp hnext
    rw [Array.size_replicate]
    exact (Array.getElem?_eq_some_iff.mp hget).1
  have hiff := isMergedTo_iff_link registry source goal
  rw [link_merges_eq] at hiff
  rcases (Walk.explores_start registry.slots.size).run hrange with ⟨hrun, hchain⟩ | ⟨hrun, hnone⟩
  · rw [walkMerges, hrun, hiff.mpr hchain]
  · rw [walkMerges, hrun, Bool.eq_false_iff.mpr fun h => hnone (hiff.mp h)]

omit hlinked in
-- A slot is created after its operands.
theorem number_lt_of_mergedInto {operand id : SlotId} (h : registry.MergedInto operand id) :
    operand.number < id.number := by
  obtain ⟨slot, left, right, hget, hkind, hoperand⟩ := h
  refine hinterned.operand_lt id slot hget operand ?_
  rw [hkind]
  rcases hoperand with rfl | rfl <;> simp [SlotKind.operands]

omit hlinked in
theorem number_lt_of_chain {source goal : SlotId}
    (h : Relation.TransGen registry.MergedInto source goal) : source.number < goal.number := by
  induction h with
  | single hmerged => exact number_lt_of_mergedInto hinterned hmerged
  | tail _ hmerged ih => exact Nat.lt_trans ih (number_lt_of_mergedInto hinterned hmerged)

end Merged

-- A slot is merged into another one exactly if a chain of least upper bounds leads there, and the
-- search with flags says so without a flag that is not there. Along a chain the numbers grow.
theorem isMergedTo_exact {lattice : Lattice} {registry : Registry}
    (h : (empty lattice).Reaches registry) :
    (∀ source goal, registry.walkMerges source goal = some (registry.isMergedTo source goal) ∧
      (registry.isMergedTo source goal = true ↔
        Relation.TransGen registry.MergedInto source goal)) ∧
      (∀ first second third, registry.isMergedTo first second = true →
        registry.isMergedTo second third = true → registry.isMergedTo first third = true) ∧
      (∀ id, registry.isMergedTo id id = false) ∧
      ∀ source goal, registry.isMergedTo source goal = true → source.number < goal.number := by
  have hlinked := h.linked (empty_linked lattice)
  have hinterned := h.interns.interned (empty_interned lattice)
  have hiff := isMergedTo_iff hlinked hinterned
  have hlt : ∀ source goal, registry.isMergedTo source goal = true → source.number < goal.number :=
    fun source goal hmerged => number_lt_of_chain hinterned ((hiff source goal).mp hmerged)
  refine ⟨fun source goal => ⟨walkMerges_eq hlinked hinterned source goal, hiff source goal⟩,
    fun first second third hfirst hsecond => ?_, fun id => ?_, hlt⟩
  · rw [hiff] at hfirst hsecond ⊢
    exact hfirst.trans hsecond
  · rw [Bool.eq_false_iff]
    intro hself
    exact Nat.lt_irrefl _ (hlt id id hself)

-- The last merge is of what the first one gave, and not of the source itself.
theorem flows_isMergedTo_exact :
    (empty taintLattice).Reaches flows ∧
      flows.mergedTo sourceSlot = [joinSlot, selfJoinSlot] ∧
      Relation.TransGen flows.MergedInto sourceSlot lastJoinSlot ∧
      flows.isMergedTo sourceSlot lastJoinSlot = true ∧
      flows.walkMerges sourceSlot lastJoinSlot = some true ∧
      flows.isMergedTo lastJoinSlot sourceSlot = false ∧
      flows.walkMerges lastJoinSlot sourceSlot = some false := by
  have hfirst : flows.MergedInto sourceSlot joinSlot :=
    ⟨_, sourceSlot, sinkSlot, rfl, rfl, .inl rfl⟩
  have hlast : flows.MergedInto joinSlot lastJoinSlot :=
    ⟨_, joinSlot, sinkSlot, rfl, rfl, .inl rfl⟩
  have hchain := (Relation.TransGen.single hfirst).tail hlast
  obtain ⟨hexact, -, -, hlt⟩ := isMergedTo_exact flows_reached
  obtain ⟨hwalk, hiff⟩ := hexact sourceSlot lastJoinSlot
  have hmerged := hiff.mpr hchain
  have hback : flows.isMergedTo lastJoinSlot sourceSlot = false := by
    rw [Bool.eq_false_iff]
    intro h
    exact absurd (hlt _ _ h) (by decide)
  obtain ⟨hwalkBack, -⟩ := hexact lastJoinSlot sourceSlot
  exact ⟨flows_reached, by decide, hchain, hmerged, hmerged ▸ hwalk, hback, hback ▸ hwalkBack⟩

end Registry

end Qualify
