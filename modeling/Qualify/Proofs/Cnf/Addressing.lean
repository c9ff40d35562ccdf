import Qualify.Proofs.Clause.Allocation
import Qualify.Proofs.Cnf.Solving

namespace Qualify

theorem Literal.isWithin_iff {count : Nat} {l : Literal} :
    Literal.isWithin count l = true ↔ l ≠ 0 ∧ l.natAbs ≤ count := by
  simp [Literal.isWithin]

namespace Numbering

-- The variables of slots and of potential slots can be told apart. Those of the slots fill the
-- first numbers and can be traced back to slot and qualifier, the others lie behind.
structure Addresses (numbering : Numbering) (registry : Registry) (potentials : List SlotId) :
    Prop where
  literal_pos : ∀ id q, id.index < registry.slots.size → q < registry.lattice.size →
    0 < numbering.literal id q
  literal_inj : ∀ id q other q', id.index < registry.slots.size → q < registry.lattice.size →
    other.index < registry.slots.size → q' < registry.lattice.size →
    numbering.literal id q = numbering.literal other q' → id = other ∧ q = q'
  decode?_literal : ∀ id q, id.index < registry.slots.size → q < registry.lattice.size →
    decode? registry (numbering.literal id q).toNat = some (id, q)
  decode?_zero : decode? registry 0 = none
  decode?_presence : ∀ p ∈ potentials, decode? registry (numbering.presence p).toNat = none
  presence_inj : ∀ p ∈ potentials, ∀ other ∈ potentials,
    numbering.presence p = numbering.presence other → p = other
  lt_presence : ∀ p ∈ potentials,
    registry.slots.size * registry.lattice.size < (numbering.presence p).toNat

theorem Addresses.mono {numbering : Numbering} {registry : Registry}
    {potentials some : List SlotId} (h : numbering.Addresses registry potentials)
    (hsome : ∀ p ∈ some, p ∈ potentials) : numbering.Addresses registry some where
  literal_pos := h.literal_pos
  literal_inj := h.literal_inj
  decode?_literal := h.decode?_literal
  decode?_zero := h.decode?_zero
  decode?_presence p hp := h.decode?_presence p (hsome p hp)
  presence_inj p hp other hother := h.presence_inj p (hsome p hp) other (hsome other hother)
  lt_presence p hp := h.lt_presence p (hsome p hp)

-- Everything follows from the two inverses: the matrix is read back by division, and the
-- variables behind it by their position.
theorem Fits.addresses {numbering : Numbering} {registry : Registry}
    (hfits : numbering.Fits registry) : numbering.Addresses registry numbering.potentials := by
  have hdecode : ∀ id q, id.index < registry.slots.size → q < registry.lattice.size →
      decode? registry (numbering.literal id q).toNat = some (id, q) := by
    intro id q hid hq
    rw [hfits.literal_eq hid hq, Int.toNat_natCast, decode?_row hid hq]
  have hbehind : ∀ p ∈ numbering.potentials,
      registry.slots.size * registry.lattice.size < (numbering.presence p).toNat := by
    intro p hp
    rw [hfits.presence_eq hp, Int.toNat_natCast, hfits.matrix_eq]
    omega
  exact {
    literal_pos := fun id q hid hq => by
      rw [hfits.literal_eq hid hq]
      exact Int.natCast_pos.mpr (Nat.succ_pos _)
    literal_inj := fun id q other q' hid hq hother hq' heq => by
      have hsame := hdecode id q hid hq
      rw [heq, hdecode other q' hother hq'] at hsame
      cases hsame
      exact ⟨rfl, rfl⟩
    decode?_literal := hdecode
    decode?_zero := rfl
    decode?_presence := fun p hp => decode?_behind (hbehind p hp)
    presence_inj := fun p hp other hother heq => by
      rw [hfits.presence_eq hp, hfits.presence_eq hother] at heq
      have hnumber := Int.natCast_inj.mp heq
      exact (List.idxOf_inj hp).mp (by omega)
    lt_presence := hbehind }

end Numbering

namespace Constraint

theorem potentialsOfAll_append (constraints others : List Constraint) :
    potentialsOfAll (constraints ++ others) =
      potentialsOfAll constraints ++ potentialsOfAll others := by
  simp only [potentialsOfAll, visitsOfAll_eq, List.flatMap_append, List.filterMap_append]

end Constraint

namespace Cnf

variable {registry : Registry} {constraints : List Constraint} {cnf : Cnf}

theorem numberingOf_append (registry : Registry) (constraints others : List Constraint) :
    numberingOf registry (constraints ++ others) =
      (numberingOf registry constraints).useAll (Constraint.potentialsOfAll others) := by
  rw [numberingOf, Constraint.potentialsOfAll_append, Numbering.useAll_append, numberingOf]

-- The clauses of the constraint at one position, or those that come from no constraint.
def clausesOf (cnf : Cnf) (origin : Option Nat) : List Clause :=
  (cnf.hard.filter fun entry => entry.2 == origin).map (·.1)

theorem filter_map_origin (clauses : List Clause) (origin wanted : Option Nat) :
    ((clauses.map (·, origin)).filter fun entry => entry.2 == wanted).map (·.1) =
      if origin = wanted then clauses else [] := by
  rw [List.filter_map, List.map_map]
  by_cases h : origin = wanted
  · simp [h, Function.comp_def]
  · simp [h, Function.comp_def]

-- The induction moves the start along: the clauses of the first constraint carry `start`, and no
-- later one does.
theorem filter_traced (numbering : Numbering) (start i : Nat) :
    ((traced registry numbering start constraints).filter fun entry =>
        entry.2 == some (start + i)).map (·.1) =
      (constraints[i]?.map (Constraint.hardClauses registry numbering)).getD [] := by
  induction constraints generalizing start i with
  | nil => rfl
  | cons c rest ih =>
      have hcons : traced registry numbering start (c :: rest) =
          (c.hardClauses registry numbering).map (·, some start) ++
            traced registry numbering (start + 1) rest := rfl
      rw [hcons, List.filter_append, List.map_append, filter_map_origin]
      cases i with
      | zero =>
          have hlater : (traced registry numbering (start + 1) rest).filter (fun entry =>
              entry.2 == some (start + 0)) = [] := by
            rw [List.filter_eq_nil_iff, traced, List.forall_mem_flatMap]
            intro entry hentry
            have hle := (List.mem_zipIdx hentry).1
            have hne : entry.2 ≠ start + 0 := by omega
            exact List.forall_mem_map.mpr fun clause _ => by simpa using hne
          rw [hlater, if_pos (congrArg some (Nat.add_zero start).symm)]
          exact List.append_nil _
      | succ i =>
          have hother : some start ≠ some (start + (i + 1)) := by simp
          have hshift : start + (i + 1) = start + 1 + i := by omega
          rw [if_neg hother, hshift, ih]
          rfl

theorem clausesOf_encoding (origin : Option Nat) :
    (encoding registry constraints).clausesOf origin =
      ((traced registry (numberingOf registry constraints) 0 constraints).filter fun entry =>
          entry.2 == origin).map (·.1) ++
        if none = origin then registry.variableSlots.flatMap fun id =>
          (numberingOf registry constraints).wellFormedness registry.lattice id else [] := by
  rw [clausesOf, encoding, List.filter_append, List.map_append, filter_map_origin]

theorem clausesOf_encoding_some {i : Nat} {c : Constraint} (hget : constraints[i]? = some c) :
    (encoding registry constraints).clausesOf (some i) =
      c.hardClauses registry (numberingOf registry constraints) := by
  have htraced := @filter_traced registry constraints (numberingOf registry constraints) 0 i
  rw [Nat.zero_add, hget] at htraced
  rw [clausesOf_encoding, htraced, if_neg (Option.some_ne_none i).symm]
  exact List.append_nil _

theorem clausesOf_encoding_none :
    (encoding registry constraints).clausesOf none = registry.variableSlots.flatMap fun id =>
      (numberingOf registry constraints).wellFormedness registry.lattice id := by
  have htraced : (traced registry (numberingOf registry constraints) 0 constraints).filter
      (fun entry => entry.2 == none) = [] := by
    rw [List.filter_eq_nil_iff]
    rintro ⟨clause, origin⟩ hentry
    obtain ⟨i, c, -, rfl, -⟩ := mem_traced.mp hentry
    simp
  rw [clausesOf_encoding, htraced, if_pos rfl]
  rfl

-- Each constraint is translated when the potential slots of the ones before it have variables, and
-- it gets the clauses that it would get with all variables known.
theorem run_translate_at
    (hencoded : ∀ c ∈ constraints, c.Encoded registry (numberingOf registry constraints)) {i : Nat}
    {c : Constraint} (hget : constraints[i]? = some c) (hsoft : c.isSoft = false) :
    (numberingOf registry (constraints.take i)).run (c.translate registry) =
        (.ok (c.hardClauses registry (numberingOf registry constraints)),
          numberingOf registry (constraints.take (i + 1))) ∧
      c.clausesWith registry (numberingOf registry constraints) =
        .ok (c.hardClauses registry (numberingOf registry constraints)) := by
  have hall := hencoded c (List.mem_of_getElem? hget) hsoft
  refine ⟨?_, hall⟩
  have htake : constraints.take (i + 1) = constraints.take i ++ [c] := by
    rw [List.take_add_one, hget]
    rfl
  have hafter : (numberingOf registry (constraints.take i)).useAll
      (c.visits.filterMap Visit.potential?) = numberingOf registry (constraints.take (i + 1)) := by
    rw [htake, numberingOf_append, Constraint.potentialsOfAll_cons]
    exact congrArg _ (List.append_nil _).symm
  have hlast : numberingOf registry constraints =
      (numberingOf registry (constraints.take (i + 1))).useAll
        (Constraint.potentialsOfAll (constraints.drop (i + 1))) := by
    rw [← numberingOf_append, List.take_append_drop]
  have hok : (c.clauses registry (numberingOf registry (constraints.take i))).1 =
      .ok (c.hardClauses registry (numberingOf registry constraints)) := by
    rw [Constraint.clauses_eq_ok_iff (Constraint.potentialsOfAll (constraints.drop (i + 1))),
      hafter, ← hlast]
    exact hall
  rw [Constraint.run_translate registry c _ fun e he => by cases hok.symm.trans he]
  exact Prod.ext hok ((Constraint.clauses_snd_of_ok hok).trans hafter)

theorem count_encoding (hfits : (numberingOf registry constraints).Fits registry) :
    (encoding registry constraints).count = registry.slots.size * registry.lattice.size +
      (Constraint.potentialsOfAll constraints).dedup.length := by
  rw [← Numbering.length_potentials_useAll_ofRegistry registry, ← hfits.matrix_eq]
  rfl

-- Variables are handed out while constraints are translated, and yet each of them means one thing
-- in all clauses: a slot and a qualifier, or the presence of one potential slot.
theorem encode_addresses (hreachable : registry.Reachable)
    (hencode : encode registry constraints = .ok cnf)
    (hcount : registry.slots.size * registry.lattice.size +
      (Constraint.potentialsOfAll constraints).dedup.length < 0x80000000) :
    (∃ hard soft, encodeFrom registry (Numbering.ofRegistry registry) 0 constraints =
        .ok (hard, soft, numberingOf registry constraints)) ∧
      (numberingOf registry constraints).Addresses registry
        (Constraint.potentialsOfAll constraints) ∧
      (∀ i c, constraints[i]? = some c → c.isSoft = false →
        (numberingOf registry (constraints.take i)).run (c.translate registry) =
            (.ok (cnf.clausesOf (some i)), numberingOf registry (constraints.take (i + 1))) ∧
          c.clausesWith registry (numberingOf registry constraints) =
            .ok (cnf.clausesOf (some i))) ∧
      cnf.count = registry.slots.size * registry.lattice.size +
        (Constraint.potentialsOfAll constraints).dedup.length ∧
      (∀ entry ∈ cnf.hard, ∀ l ∈ entry.1, l ≠ 0 ∧ l.natAbs ≤ cnf.count) ∧
      ((∀ c ∈ constraints, Constraint.Built registry c) →
        (∀ entry ∈ cnf.soft, ∀ l ∈ entry.1, l ≠ 0 ∧ l.natAbs ≤ cnf.count) ∧
          cnf.problem.isWithin = true ∧ cnf.selection.isWithin = true) := by
  have hwf := hreachable.wellFormed
  obtain ⟨hencoded, -, rfl⟩ := encode_eq_ok_iff.mp hencode
  have hencodable := fun c hc => (hencoded c hc).encodable
  have hfits := numberingOf_fits hcount
  have hcnf := encoding_represents hwf hencodable hfits
  have hpotentials : ∀ p ∈ Constraint.potentialsOfAll constraints,
      p ∈ (numberingOf registry constraints).potentials :=
    fun p hp => Numbering.mem_useAll.mpr (.inr hp)
  refine ⟨⟨_, _, (encodeFrom_eq_ok_iff rfl).mpr ⟨hencoded, rfl⟩⟩, hfits.addresses.mono hpotentials,
    fun i c hget hsoft => ?_, count_encoding hfits, ?_, fun hbuilt => ⟨?_, ?_, ?_⟩⟩
  · rw [clausesOf_encoding_some hget]
    exact run_translate_at hencoded hget hsoft
  · exact fun entry hentry l hl =>
      Literal.isWithin_iff.mp (hcnf.within entry.1 (List.mem_map_of_mem hentry) l hl)
  · exact fun entry hentry l hl => Literal.isWithin_iff.mp
      (softClauses_within hfits hwf hbuilt entry.1 (List.mem_map_of_mem hentry) l hl)
  · exact hcnf.isWithin hfits hwf hbuilt
  · simp only [Sat.Selection.isWithin, List.all_eq_true]
    exact hcnf.within

section Sample

open Registry

def presenceRules : List Constraint :=
  [.existential sinkSlot
      [.existential sourceSlot [.relation .equality sinkSlot taintedSlot .missing] []
        (.code "io" 1 1 "")] [] (.code "io" 2 1 ""),
    .implication
      [.existential sourceSlot [.relation .equality sinkSlot taintedSlot .missing] []
        (.code "io" 1 1 "")]
      (.existential sinkSlot [] [.relation .equality sourceSlot taintedSlot .missing]
        (.code "io" 2 1 "")) .missing]

theorem presenceRules_built : ∀ c ∈ presenceRules, Constraint.Built taint c := by
  have hnone : ∀ part ∈ ([] : List Constraint), Constraint.Built taint part := by simp
  have hsink : Constraint.relate taint .equality sinkSlot taintedSlot .missing = .ok _ := rfl
  have hsource : Constraint.relate taint .equality sourceSlot taintedSlot .missing = .ok _ := rfl
  have hinner : Constraint.branch taint sourceSlot
      [.relation .equality sinkSlot taintedSlot .missing] [] = .ok _ := rfl
  have hassumption := Constraint.Built.branch .refl
    (List.forall_mem_singleton.mpr (.relate .refl hsink)) hnone hinner
  have houter : Constraint.branch taint sinkSlot
      [.existential sourceSlot [.relation .equality sinkSlot taintedSlot .missing] []
        (.code "io" 1 1 "")] [] = .ok _ := rfl
  have hconclusion : Constraint.branch taint sinkSlot []
      [.relation .equality sourceSlot taintedSlot .missing] = .ok _ := rfl
  refine List.forall_mem_cons.mpr ⟨?_, List.forall_mem_singleton.mpr ?_⟩
  · exact .branch .refl (List.forall_mem_singleton.mpr hassumption) hnone houter
  · exact .imply (List.forall_mem_singleton.mpr hassumption)
      (.branch .refl hnone (List.forall_mem_singleton.mpr (.relate .refl hsource)) hconclusion) rfl

-- The matrix of the four slots has eight variables, and behind it come the sink and the source.
theorem presenceRules_encode_addresses :
    ∃ cnf, encode taint presenceRules = .ok cnf ∧ cnf.count = 10 ∧
      cnf.clausesOf (some 0) = [[7, -10, -9]] ∧ cnf.clausesOf (some 1) = [[-7, 5, 9], [10, 5, 9]] ∧
      (numberingOf taint presenceRules).Addresses taint
        [sinkSlot, sourceSlot, sourceSlot, sinkSlot] ∧
      cnf.problem.isWithin = true := by
  have hencode := encode_of_hasRoom taint_reachable.wellFormed
    (fun c hc => (presenceRules_built c hc).succeeds) (numberingOf_fits (by decide)) (by decide)
  obtain ⟨-, haddresses, -, hcount, -, hbuilt⟩ :=
    encode_addresses taint_reachable hencode (by decide)
  exact ⟨_, hencode, hcount, by decide, by decide, haddresses, (hbuilt presenceRules_built).2.1⟩

end Sample

end Cnf

end Qualify
