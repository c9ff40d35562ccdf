import Qualify.Proofs.Cnf.Addressing
import Qualify.Proofs.Cnf.Dimacs
import Qualify.Proofs.Slot.Resolution

namespace Qualify

namespace Literal

theorem narrow_eq_natCast_iff {n : Nat} : narrow (n : Int) = n ↔ n < 0x80000000 := by
  constructor
  · intro h
    have hupper : narrow n < (0x80000000 : Int) := Int.bmod_lt (by decide)
    rw [h] at hupper
    exact Int.ofNat_lt.mp hupper
  · exact narrow_natCast

-- The bits beyond 32 make no difference, and neither does the sign.
theorem natAbs_narrow_eq_iff (m n : Int) :
    (narrow m).natAbs = (narrow n).natAbs ↔ 0x100000000 ∣ m - n ∨ 0x100000000 ∣ m + n := by
  have bounds : ∀ k : Int, -0x80000000 ≤ Int.bmod k 0x100000000 ∧
      Int.bmod k 0x100000000 < 0x80000000 ∧ 0x100000000 ∣ k - Int.bmod k 0x100000000 :=
    fun k => ⟨Int.le_bmod (by decide), Int.bmod_lt (by decide), Int.dvd_self_sub_bmod⟩
  obtain ⟨hlow, hhigh, hdvd⟩ := bounds m
  obtain ⟨hlow', hhigh', hdvd'⟩ := bounds n
  rw [narrow, narrow]
  omega

-- The only number whose literal cannot be negated is the least one, in 32 bits.
theorem isNegatable_narrow_iff {n : Nat} :
    isNegatable (narrow n) = true ↔ n % 0x100000000 ≠ 0x80000000 := by
  have hlower : -0x80000000 ≤ Int.bmod n 0x100000000 := Int.le_bmod (by decide)
  have hupper : Int.bmod n 0x100000000 < 0x80000000 := Int.bmod_lt (by decide)
  have hdvd : 0x100000000 ∣ (n : Int) - Int.bmod n 0x100000000 := Int.dvd_self_sub_bmod
  rw [isNegatable, narrow]
  generalize Int.bmod n 0x100000000 = l at *
  simp only [isWord, Bool.and_eq_true, decide_eq_true_eq]
  omega

end Literal

namespace Clause

-- With two literals or more, each of them is negated.
theorem words_exactlyOne_iff {literals : List Literal}
    (hwords : ∀ l ∈ literals, Literal.isWord l = true) :
    Words (exactlyOne literals) ↔
      (2 ≤ literals.length → ∀ l ∈ literals, Literal.isNegatable l = true) := by
  rw [Words, exactlyOne, List.forall_mem_cons, and_iff_right hwords, atMostOne, List.forall_mem_map]
  rcases literals with _ | ⟨first, _ | ⟨second, rest⟩⟩
  · simp [pairsOf]
  · simp [pairsOf]
  · rw [imp_iff_right (by simp)]
    constructor
    · intro h
      have hpairs : (first :: second :: rest).Pairwise fun a b =>
          Literal.isNegatable a = true ∧ Literal.isNegatable b = true :=
        (forall_mem_pairsOf _ _).mp fun pair hpair => by
          simpa [Literal.isNegatable] using h pair hpair
      have hfirst := (List.pairwise_cons.mp hpairs).1
      exact List.forall_mem_cons.mpr
        ⟨(hfirst second List.mem_cons_self).1, fun l hl => (hfirst l hl).2⟩
    · intro h pair hpair
      obtain ⟨hfirst, hsecond⟩ := mem_of_mem_pairsOf hpair
      simpa [Literal.isNegatable] using ⟨h _ hfirst, h _ hsecond⟩

end Clause

namespace Registry

def address (registry : Registry) (id : SlotId) (q : Qualifier) : Nat :=
  (id.number - 1) * registry.lattice.size + q + 1

theorem address_le (registry : Registry) (id : SlotId) {q : Qualifier}
    (hq : q < registry.lattice.size) :
    registry.address id q ≤ id.number * registry.lattice.size :=
  Numbering.row_le (Nat.lt_succ_self id.index) hq

theorem address_last (registry : Registry) (id : SlotId) (hpos : 0 < registry.lattice.size) :
    registry.address id (registry.lattice.size - 1) = id.number * registry.lattice.size := by
  rw [address, SlotId.number, Nat.add_sub_cancel, Nat.succ_mul]
  omega

-- All addresses of a slot are below a bound when the end of its row is.
theorem forall_address_lt_iff {registry : Registry} {id : SlotId} {bound : Nat}
    (hbound : 0 < bound) :
    (∀ q < registry.lattice.size, registry.address id q < bound) ↔
      id.number * registry.lattice.size < bound := by
  constructor
  · intro h
    by_cases hsize : registry.lattice.size = 0
    · rwa [hsize, Nat.mul_zero]
    · have hlast := h (registry.lattice.size - 1) (by omega)
      rwa [address_last registry id (by omega)] at hlast
  · intro h q hq
    have hle := registry.address_le id hq
    omega

end Registry

namespace Numbering

variable {numbering : Numbering} {registry : Registry}

theorem literal_eq_narrow (hsize : numbering.size = registry.lattice.size) (id : SlotId)
    (q : Qualifier) : numbering.literal id q = Literal.narrow (registry.address id q) := by
  rw [literal, Registry.address, SlotId.number, Nat.add_sub_cancel, hsize]
  push_cast
  rfl

-- Each variable slot and qualifier has the variable at its address, which is among the first.
def Exact (numbering : Numbering) (registry : Registry) (count : Nat) : Prop :=
  ∀ id ∈ registry.variableSlots, ∀ q < registry.lattice.size,
    (0 : Int) < numbering.literal id q ∧ numbering.literal id q = registry.address id q ∧
      numbering.literal id q ≤ (count : Int)

theorem literal_eq_address_iff (hsize : numbering.size = registry.lattice.size) {id : SlotId}
    {q : Qualifier} :
    numbering.literal id q = registry.address id q ↔ registry.address id q < 0x80000000 := by
  rw [literal_eq_narrow hsize, Literal.narrow_eq_natCast_iff]

-- The largest address of a row is `id.number * size`, so that it is enough to bound that one.
theorem exact_iff (hsize : numbering.size = registry.lattice.size) {count : Nat} :
    numbering.Exact registry count ↔
      ∀ id ∈ registry.variableSlots, id.number * registry.lattice.size < 0x80000000 ∧
        id.number * registry.lattice.size < count + 1 := by
  refine forall₂_congr fun id _ => ?_
  rw [← Registry.forall_address_lt_iff (by decide), ← Registry.forall_address_lt_iff (by omega),
    ← forall₂_and]
  refine forall₂_congr fun q _ => ?_
  rw [literal_eq_address_iff hsize]
  constructor
  · rintro ⟨-, hlt, hle⟩
    rw [(literal_eq_address_iff hsize).mpr hlt] at hle
    exact ⟨hlt, Nat.lt_succ_of_le (Int.ofNat_le.mp hle)⟩
  · rintro ⟨hlt, hle⟩
    rw [(literal_eq_address_iff hsize).mpr hlt]
    exact ⟨Int.natCast_pos.mpr (Nat.succ_pos _), hlt, Int.ofNat_le.mpr (Nat.le_of_lt_succ hle)⟩

-- The clauses for a slot are about the variables at its addresses, unless its row goes too far.
theorem wellFormedness_eq_iff (hsize : numbering.size = registry.lattice.size) (id : SlotId) :
    numbering.wellFormedness registry.lattice id =
        Clause.exactlyOne (registry.lattice.qualifiers.map fun q => (registry.address id q : Int)) ↔
      id.number * registry.lattice.size < 0x80000000 := by
  rw [← Registry.forall_address_lt_iff (by decide)]
  constructor
  · intro h q hq
    have hfirst : registry.lattice.qualifiers.map (numbering.literal id) =
        registry.lattice.qualifiers.map fun q => (registry.address id q : Int) :=
      (List.cons.inj h).1
    have hliteral : numbering.literal id q = registry.address id q :=
      List.map_inj_left.mp hfirst q (List.mem_range.mpr hq)
    exact (literal_eq_address_iff hsize).mp hliteral
  · intro h
    have hrow : registry.lattice.qualifiers.map (numbering.literal id) =
        registry.lattice.qualifiers.map fun q => (registry.address id q : Int) :=
      List.map_congr_left fun q hq =>
        (literal_eq_address_iff hsize).mpr (h q (List.mem_range.mp hq))
    rw [wellFormedness, hrow]

theorem wellFormedness_words_iff (hsize : numbering.size = registry.lattice.size) (id : SlotId) :
    Words (numbering.wellFormedness registry.lattice id) ↔ (2 ≤ registry.lattice.size →
      ∀ q < registry.lattice.size, registry.address id q % 0x100000000 ≠ 0x80000000) := by
  have hwords : ∀ l ∈ registry.lattice.qualifiers.map (numbering.literal id),
      Literal.isWord l = true :=
    List.forall_mem_map.mpr fun q _ => Literal.isWord_narrow _
  rw [wellFormedness, Clause.words_exactlyOne_iff hwords, List.forall_mem_map, List.length_map,
    Lattice.qualifiers, List.length_range]
  refine imp_congr_right fun _ => forall_congr' fun q => ?_
  rw [List.mem_range, literal_eq_narrow hsize, Literal.isNegatable_narrow_iff]

end Numbering

theorem eq_of_flatMap_eq {α β : Type} {f g : α → List β} {items : List α}
    (hlength : ∀ a, (f a).length = (g a).length) (h : items.flatMap f = items.flatMap g) :
    ∀ a ∈ items, f a = g a := by
  induction items with
  | nil => simp
  | cons a rest ih =>
      rw [List.flatMap_cons, List.flatMap_cons] at h
      obtain ⟨hfirst, hrest⟩ := List.append_inj h (hlength a)
      exact List.forall_mem_cons.mpr ⟨hfirst, ih hrest⟩

namespace Cnf

variable {registry : Registry} {constraints : List Constraint} {cnf : Cnf}

theorem numberingOf_size (registry : Registry) (constraints : List Constraint) :
    (numberingOf registry constraints).size = registry.lattice.size :=
  Numbering.useAll_size _ _

theorem numberingOf_matrix (registry : Registry) (constraints : List Constraint) :
    (numberingOf registry constraints).matrix =
      registry.slots.size * registry.lattice.size % 0x100000000 :=
  Numbering.useAll_matrix _ _

theorem count_encoding_eq (registry : Registry) (constraints : List Constraint) :
    (encoding registry constraints).count =
      registry.slots.size * registry.lattice.size % 0x100000000 +
        (Constraint.potentialsOfAll constraints).dedup.length := by
  rw [← Numbering.length_potentials_useAll_ofRegistry registry, ← numberingOf_matrix registry]
  rfl

theorem presence?_numberingOf
    (hencoded : ∀ c ∈ constraints, c.Encoded registry (numberingOf registry constraints))
    {p : SlotId} (hp : p ∈ (numberingOf registry constraints).potentials) :
    (numberingOf registry constraints).presence? p =
      .ok ((numberingOf registry constraints).presence p) := by
  have hused : p ∈ Constraint.potentialsOfAll constraints :=
    (Numbering.mem_useAll.mp hp).resolve_left List.not_mem_nil
  obtain ⟨c, hc, hvisit⟩ := Constraint.mem_potentialsOfAll.mp hused
  have hsoft : c.isSoft = false := by
    refine Bool.eq_false_iff.mpr fun hsoft => ?_
    obtain ⟨_, _, _, _, _, rfl⟩ := Constraint.eq_preference_of_isSoft hsoft
    simp [Constraint.visits] at hvisit
  exact Constraint.presence?_of_clausesWith c (hencoded c hc hsoft) p hvisit

-- The last potential slot has the last number, and there is one.
theorem count_numberingOf_lt
    (hencoded : ∀ c ∈ constraints, c.Encoded registry (numberingOf registry constraints)) :
    (numberingOf registry constraints).count < 0x100000000 := by
  have hpresence := fun p => @presence?_numberingOf registry constraints hencoded p
  have hnodup : (numberingOf registry constraints).potentials.Nodup :=
    Numbering.nodup_useAll _ List.nodup_nil
  unfold Numbering.count
  rcases List.eq_nil_or_concat (numberingOf registry constraints).potentials with
    hnil | ⟨rest, p, hlast⟩
  · rw [hnil, numberingOf_matrix]
    exact Nat.mod_lt _ (by decide)
  · have hok := hpresence p (by simp [hlast])
    rw [hlast, List.concat_eq_append] at hnodup
    have hnew : p ∉ rest := fun hmem =>
      List.disjoint_of_nodup_append hnodup hmem (List.mem_singleton.mpr rfl)
    rw [Numbering.presence?, hlast, List.concat_eq_append, List.idxOf_append_of_notMem hnew,
      List.idxOf_cons_self] at hok
    rw [hlast, List.length_concat]
    split at hok
    · assumption
    · cases hok

theorem clausesOf_none_eq_iff (registry : Registry) (constraints : List Constraint) :
    ((encoding registry constraints).clausesOf none = registry.variableSlots.flatMap fun id =>
        Clause.exactlyOne
          (registry.lattice.qualifiers.map fun q => (registry.address id q : Int))) ↔
      ∀ id ∈ registry.variableSlots, id.number * registry.lattice.size < 0x80000000 := by
  have hrow := Numbering.wellFormedness_eq_iff (numberingOf_size registry constraints)
  rw [clausesOf_encoding_none]
  constructor
  · intro h id hid
    refine (hrow id).mp (eq_of_flatMap_eq (fun other => ?_) h id hid)
    rw [Numbering.length_wellFormedness, Clause.length_exactlyOne, List.length_map,
      Lattice.qualifiers, List.length_range]
  · intro h
    exact List.flatMap_congr fun id hid => (hrow id).mpr (h id hid)

end Cnf

-- What a boolean variable says: a slot takes a qualifier, or a potential slot is present.
inductive Atom where
  | takes (id : SlotId) (q : Qualifier)
  | present (potential : SlotId)

namespace Atom

def literal (numbering : Numbering) : Atom → Literal
  | takes id q => numbering.literal id q
  | present potential => numbering.presence potential

-- The number of the variable, where numbers may be of any size. The potential slots come behind
-- the rows of all slots.
def number (registry : Registry) (numbering : Numbering) : Atom → Nat
  | takes id q => registry.address id q
  | present potential =>
      registry.slots.size * registry.lattice.size + numbering.potentials.idxOf potential + 1

def Concerns (registry : Registry) (c : Constraint) : Atom → Prop
  | takes id q => (id ∈ c.slots ∧ id ∈ registry.variableSlots) ∧ q < registry.lattice.size
  | present potential => Visit.potential potential ∈ c.visits

theorem literal_numberingOf (registry : Registry) (constraints : List Constraint) (atom : Atom) :
    atom.literal (Cnf.numberingOf registry constraints) =
      Literal.narrow (atom.number registry (Cnf.numberingOf registry constraints)) := by
  cases atom with
  | takes id q => exact Numbering.literal_eq_narrow (Cnf.numberingOf_size registry constraints) id q
  | present potential =>
      rw [literal, number, Numbering.presence, Cnf.numberingOf_matrix, Int.natCast_emod,
        Int.add_assoc, Literal.narrow]
      refine (Int.emod_add_bmod _ _).trans ?_
      rw [Literal.narrow]
      push_cast
      rw [Int.add_assoc]

theorem exists_of_literalOf {registry : Registry} {numbering : Numbering} {c : Constraint}
    {l : Literal} (h : Constraint.LiteralOf registry numbering c l) :
    ∃ atom : Atom, atom.Concerns registry c ∧
      (l = atom.literal numbering ∨ l = -atom.literal numbering) := by
  rcases h with ⟨id, hid, q, hq, hl⟩ | ⟨p, hp, hl⟩
  · exact ⟨.takes id q, ⟨hid, hq⟩, hl⟩
  · exact ⟨.present p, hp, hl⟩

end Atom

namespace Cnf

variable {registry : Registry} {constraints : List Constraint} {cnf : Cnf}

theorem words_encoding
    (hencoded : ∀ c ∈ constraints, c.Encoded registry (numberingOf registry constraints))
    (hrows : Words (registry.variableSlots.flatMap fun id =>
      (numberingOf registry constraints).wellFormedness registry.lattice id)) :
    Words ((encoding registry constraints).hard.map (·.1)) := by
  rw [map_fst_encoding]
  refine List.forall_mem_append.mpr ⟨fun clause hclause => ?_, hrows⟩
  obtain ⟨c, hc, hmem⟩ := mem_map_fst_traced.mp hclause
  cases hsoft : c.isSoft with
  | true =>
      rw [Constraint.hardClauses_of_soft hsoft] at hmem
      cases hmem
  | false => exact Constraint.words_of_clausesWith c (hencoded c hc hsoft) clause hmem

theorem literalOf_clausesOf (hwf : registry.WellFormed)
    (hencodable : ∀ c ∈ constraints, c.Encodable registry) {i : Nat} {c : Constraint}
    (hget : constraints[i]? = some c) :
    ∀ clause ∈ (encoding registry constraints).clausesOf (some i), ∀ l ∈ clause,
      Constraint.LiteralOf registry (numberingOf registry constraints) c l := by
  rw [clausesOf_encoding_some hget]
  cases hsoft : c.isSoft with
  | true =>
      rw [Constraint.hardClauses_of_soft hsoft]
      exact List.forall_mem_nil _
  | false =>
      have hc := hencodable c (List.mem_of_getElem? hget)
      exact Constraint.literalOf_of_idealClauses hwf c (hc.idealClauses_eq hsoft _)

-- Literals are what they should be as long as the last row of a variable ends before the first
-- number without a word. Behind it different atoms can have the same variable. Nothing is noticed
-- of that, unless a literal that cannot be negated belongs to a variable.
theorem encode_exact_iff (hreachable : registry.Reachable)
    (hencode : encode registry constraints = .ok cnf) :
    ((numberingOf registry constraints).Exact registry cnf.count ↔
        ∀ id ∈ registry.variableSlots, id.number * registry.lattice.size < 0x80000000 ∧
          id.number * registry.lattice.size ≤ cnf.count) ∧
      (cnf.count = registry.slots.size * registry.lattice.size % 0x100000000 +
          (Constraint.potentialsOfAll constraints).dedup.length ∧ cnf.count < 0x100000000) ∧
      Words (cnf.hard.map (·.1)) ∧
      (2 ≤ registry.lattice.size → ∀ id ∈ registry.variableSlots, ∀ q < registry.lattice.size,
        registry.address id q % 0x100000000 ≠ 0x80000000) ∧
      ((cnf.clausesOf none = registry.variableSlots.flatMap fun id => Clause.exactlyOne
          (registry.lattice.qualifiers.map fun q => (registry.address id q : Int))) ↔
        ∀ id ∈ registry.variableSlots, id.number * registry.lattice.size < 0x80000000) ∧
      (∀ i c, constraints[i]? = some c → ∀ clause ∈ cnf.clausesOf (some i), ∀ l ∈ clause,
        ∃ atom : Atom, atom.Concerns registry c ∧
          (l = atom.literal (numberingOf registry constraints) ∨
            l = -atom.literal (numberingOf registry constraints))) ∧
      ∀ atom other : Atom, (atom.literal (numberingOf registry constraints)).natAbs =
          (other.literal (numberingOf registry constraints)).natAbs ↔
        (0x100000000 : Int) ∣ atom.number registry (numberingOf registry constraints) -
            other.number registry (numberingOf registry constraints) ∨
          (0x100000000 : Int) ∣ atom.number registry (numberingOf registry constraints) +
            other.number registry (numberingOf registry constraints) := by
  obtain ⟨hencoded, hrows, rfl⟩ := encode_eq_ok_iff.mp hencode
  have hsize := numberingOf_size registry constraints
  refine ⟨?_, ⟨count_encoding_eq registry constraints, count_numberingOf_lt hencoded⟩,
    words_encoding hencoded hrows, fun htwo id hid => ?_, clausesOf_none_eq_iff registry constraints,
    fun i c hget clause hclause l hl => ?_, fun atom other => ?_⟩
  · rw [Numbering.exact_iff hsize]
    exact forall₂_congr fun id _ => and_congr_right fun _ => Nat.lt_succ_iff
  · exact (Numbering.wellFormedness_words_iff hsize id).mp
      (fun clause hclause => hrows clause (List.mem_flatMap_of_mem hid hclause)) htwo
  · exact Atom.exists_of_literalOf (literalOf_clausesOf hreachable.wellFormed
      (fun c hc => (hencoded c hc).encodable) hget clause hclause l hl)
  · rw [Atom.literal_numberingOf, Atom.literal_numberingOf]
    exact Literal.natAbs_narrow_eq_iff _ _

open Registry in
theorem presenceRules_encode_exact_iff :
    ∃ cnf, encode taint presenceRules = .ok cnf ∧ cnf.count = 10 ∧
      (numberingOf taint presenceRules).Exact taint cnf.count ∧
      (numberingOf taint presenceRules).literal sinkSlot 1 = 8 := by
  have hencode := encode_of_hasRoom taint_reachable.wellFormed
    (fun c hc => (presenceRules_built c hc).succeeds) (numberingOf_fits (by decide)) (by decide)
  obtain ⟨hexact, ⟨hcount, -⟩, -⟩ := encode_exact_iff taint_reachable hencode
  have hten : (encoding taint presenceRules).count = 10 := hcount.trans (by decide)
  refine ⟨_, hencode, hten, hexact.mpr ?_, by decide⟩
  rw [hten]
  decide

end Cnf

namespace Constraint

variable {registry : Registry} {id constant : SlotId} {slot other : Slot} {q : Qualifier}

theorem clausesWith_relation_constant (hid : registry.get? id = some slot)
    (hslot : slot.constant? = none) (hconstant : registry.get? constant = some other)
    (hother : other.constant? = some q) {kind : Relation} {numbering : Numbering}
    (hwords : Words (numbering.variableConstantClauses registry.lattice kind id q))
    (location : Location) :
    clausesWith registry numbering (.relation kind id constant location) =
      .ok (numbering.variableConstantClauses registry.lattice kind id q) := by
  have hroute : registry.relationRoute kind id constant location = .ok (.variableConstant id q) := by
    rw [Registry.relationRoute, Registry.operand_of_get? hid, Registry.operand_of_get? hconstant,
      hslot, hother]
    rfl
  exact clausesWith_relation_eq_ok.mpr ⟨_, hroute, hwords, rfl⟩

theorem relate_constant (hid : registry.get? id = some slot) (hslot : slot.constant? = none)
    (hconstant : registry.get? constant = some other) (hother : other.constant? = some q)
    {kind : Relation} (hopen : holdsTrivially registry.lattice kind none (some q) = false)
    (location : Location) :
    relate registry kind id constant location = .ok (.relation kind id constant location) := by
  have hne : id ≠ constant := by
    rintro rfl
    cases Option.some.inj (hid.symm.trans hconstant)
    cases hslot.symm.trans hother
  rw [relate, slotOf_eq_ok.mpr hid, slotOf_eq_ok.mpr hconstant]
  simp only [Except.bind_of_ok rfl, hslot, hother, hne, hopen]
  rfl

end Constraint

namespace Cnf

variable {registry : Registry} {id twin constant : SlotId} {slot other known : Slot}
  {q : Qualifier}

-- One relation against a constant uses no potential, so that the numbering stays that of the
-- registry.
theorem encode_relation_constant (hid : registry.get? id = some slot)
    (hslot : slot.constant? = none) (hconstant : registry.get? constant = some known)
    (hknown : known.constant? = some q) {kind : Relation}
    (hwords : Words ((Numbering.ofRegistry registry).variableConstantClauses registry.lattice kind
      id q))
    (hrows : Words (registry.variableSlots.flatMap fun id =>
      (Numbering.ofRegistry registry).wellFormedness registry.lattice id)) (location : Location) :
    encode registry [.relation kind id constant location] = .ok {
      count := (Numbering.ofRegistry registry).count
      size := registry.lattice.size
      hard := ((Numbering.ofRegistry registry).variableConstantClauses registry.lattice kind id
          q).map (·, some 0) ++
        (registry.variableSlots.flatMap fun id =>
          (Numbering.ofRegistry registry).wellFormedness registry.lattice id).map (·, none)
      soft := []
      slots := registry.variableSlots } := by
  have hclauses :=
    Constraint.clausesWith_relation_constant hid hslot hconstant hknown hwords location
  have htraced : traced registry (Numbering.ofRegistry registry) 0
        [.relation kind id constant location] =
      ((Numbering.ofRegistry registry).variableConstantClauses registry.lattice kind id q).map
        (·, some 0) := by
    rw [← Constraint.hardClauses_of_ok rfl hclauses]
    exact List.append_nil _
  rw [encode_eq_ok_iff]
  refine ⟨List.forall_mem_singleton.mpr (Constraint.encoded_of_ok hclauses), hrows, ?_⟩
  rw [← htraced]
  rfl

-- When a literal of one slot is the negative of a literal of another, the clauses do not tell what
-- is asked of the one from the opposite asked of the other.
theorem encode_equality_eq_inequality (hid : registry.get? id = some slot)
    (hslot : slot.constant? = none) (htwin : registry.get? twin = some other)
    (hother : other.constant? = none) (hconstant : registry.get? constant = some known)
    (hknown : known.constant? = some q)
    (hliteral : (Numbering.ofRegistry registry).literal id q =
      -(Numbering.ofRegistry registry).literal twin q)
    (hrows : Words (registry.variableSlots.flatMap fun id =>
      (Numbering.ofRegistry registry).wellFormedness registry.lattice id)) (location : Location) :
    ∃ cnf, encode registry [.relation .equality id constant location] = .ok cnf ∧
      encode registry [.relation .inequality twin constant location] = .ok cnf := by
  have hclauses : (Numbering.ofRegistry registry).variableConstantClauses registry.lattice
        .equality id q =
      (Numbering.ofRegistry registry).variableConstantClauses registry.lattice .inequality twin q :=
    congrArg (fun l => [[l]]) hliteral
  have hwords : Words ((Numbering.ofRegistry registry).variableConstantClauses registry.lattice
      .equality id q) :=
    List.forall_mem_singleton.mpr (List.forall_mem_singleton.mpr (Literal.isWord_narrow _))
  refine ⟨_, encode_relation_constant hid hslot hconstant hknown hwords hrows location, ?_⟩
  rw [hclauses] at hwords ⊢
  exact encode_relation_constant htwin hother hconstant hknown hwords hrows location

section Sample

open Registry

-- The first slot behind the least literal, the slot of that literal, and the slot before it.
def lastSlot : SlotId := ⟨0x40000000, by decide⟩

def leastSlot : SlotId := ⟨0x3FFFFFFF, by decide⟩

def twinSlot : SlotId := ⟨0x3FFFFFFE, by decide⟩

-- Over two qualifiers there can be that many variables, with a constant for the least literal.
theorem exists_crowded :
    ∃ registry : Registry, registry.Reachable ∧ registry.lattice = taintLattice ∧
      registry.slots.size = 0x40000001 ∧
      registry.get? leastSlot = some ⟨leastSlot, .missing, .constant 1⟩ ∧
      ∀ id slot, registry.get? id = some slot → id ≠ leastSlot → slot.constant? = none := by
  obtain ⟨before, hreaches, hsize, hvariables⟩ :=
    @exists_reaches_size (empty taintLattice) 0x3FFFFFFF (by decide)
  have hreachable : before.Reachable := ⟨taintDeclaration, taintLattice, rfl, hreaches⟩
  have hlattice : before.lattice = taintLattice := hreaches.grows.lattice_eq
  have hfull : before.slots.size = 0x3FFFFFFF := hsize.trans (Nat.zero_add _)
  have hvariable : ∀ i (slot : Slot), before.slots[i]? = some slot → slot.constant? = none :=
    fun i slot hget => hvariables i slot (Nat.zero_le _) hget
  have hnone : ∀ id, ¬before.IsConstant 1 id := by
    rintro id ⟨slot, hget, hslot⟩
    cases (hvariable id.index slot hget).symm.trans hslot
  have hnext : before.nextId? = some leastSlot := by
    rw [nextId?, hfull]
    rfl
  have hconstant : (before.after (.constant 1)).slots =
      before.slots.push ⟨leastSlot, .missing, .constant 1⟩ := by
    have hq : 1 < before.lattice.size := hlattice ▸ Nat.one_lt_two
    rw [after, hreachable.interned.createConstant_of_forall_not hq hnone, add, hnext]
  have hmiddle : (before.after (.constant 1)).slots.size = 0x40000000 := by
    rw [hconstant, Array.size_push, hfull]
  have hleast : (before.after (.constant 1)).get? leastSlot =
      some ⟨leastSlot, .missing, .constant 1⟩ := by
    have hindex : leastSlot.index = before.slots.size := hfull.symm
    rw [get?, hconstant, hindex, Array.getElem?_push_size]
  obtain ⟨later, hlater, hlast, hvariables'⟩ :=
    @exists_reaches_size (before.after (.constant 1)) 1 (by rw [hmiddle]; decide)
  rw [hmiddle] at hlast hvariables'
  have hwhole := (Reaches.refl.step (.constant 1) : before.Reaches _).trans hlater
  refine ⟨later, hreachable.reaches hwhole, hwhole.grows.lattice_eq.trans hlattice, hlast,
    hlater.grows.get?_eq _ _ hleast, fun id slot hget hne => ?_⟩
  -- The slot is older than the constant, the constant itself, or younger.
  rcases Nat.lt_trichotomy id.index 0x3FFFFFFF with hlt | heq | hgt
  · have hold : before.get? id = some _ := Array.getElem?_eq_getElem (by omega)
    cases Option.some.inj (hget.symm.trans (hwhole.grows.get?_eq _ _ hold))
    exact hvariable _ _ hold
  · exact absurd (SlotId.eq_of_index heq) hne
  · exact hvariables' id.index slot hgt hget

-- What is asked of the one slot is read as the opposite, asked of the other.
theorem crowded_conflated :
    ∃ registry : Registry, registry.Reachable ∧
      lastSlot ∈ registry.variableSlots ∧ twinSlot ∈ registry.variableSlots ∧
      registry.address lastSlot 1 = 2147483650 ∧
      (Numbering.ofRegistry registry).literal lastSlot 1 = -2147483646 ∧
      ∃ lastUntainted twinTainted cnf,
        Constraint.relate registry .equality lastSlot leastSlot .missing = .ok lastUntainted ∧
        Constraint.relate registry .inequality twinSlot leastSlot .missing = .ok twinTainted ∧
        encode registry [lastUntainted] = .ok cnf ∧ encode registry [twinTainted] = .ok cnf ∧
        ∃ interpretation : Interpretation, interpretation.InRange registry ∧
          interpretation.eval registry lastUntainted = true ∧
          interpretation.eval registry twinTainted = false := by
  obtain ⟨registry, hreachable, hlattice, hsize, hconstant, hvariable⟩ := exists_crowded
  have hwf := hreachable.wellFormed
  obtain ⟨last, hlast⟩ : ∃ slot, registry.get? lastSlot = some slot :=
    ⟨_, Array.getElem?_eq_getElem (by rw [hsize]; decide)⟩
  obtain ⟨twin, htwin⟩ : ∃ slot, registry.get? twinSlot = some slot :=
    ⟨_, Array.getElem?_eq_getElem (by rw [hsize]; decide)⟩
  have hlastVariable := hvariable lastSlot last hlast (by decide)
  have htwinVariable := hvariable twinSlot twin htwin (by decide)
  have hliteral : ∀ id, (Numbering.ofRegistry registry).literal id 1 =
      Literal.narrow (id.index * 2 + 1 + 1) := by
    intro id
    rw [Numbering.literal, Numbering.ofRegistry, hlattice]
    rfl
  have hopposite : (Numbering.ofRegistry registry).literal lastSlot 1 =
      -(Numbering.ofRegistry registry).literal twinSlot 1 := by
    rw [hliteral, hliteral]
    decide
  -- Only the row of the constant would have the least literal, and constants have no row.
  have hrows : Words (registry.variableSlots.flatMap fun id =>
      (Numbering.ofRegistry registry).wellFormedness registry.lattice id) := by
    refine List.forall_mem_flatMap.mpr fun id hid =>
      (Numbering.wellFormedness_words_iff rfl id).mpr fun _ q hq => ?_
    have hlt := hwf.index_lt hid
    have hne : id.index ≠ 0x3FFFFFFF := by
      intro hindex
      obtain rfl : id = leastSlot := SlotId.eq_of_index hindex
      cases (hwf.mem_variableSlots hconstant).mp hid
    have htwo : registry.lattice.size = 2 := congrArg Lattice.size hlattice
    rw [htwo] at hq
    rw [hsize] at hlt
    rw [address, htwo, SlotId.number, Nat.add_sub_cancel]
    omega
  have hvalue : ∀ {id : SlotId} (slot : Slot), registry.get? id = some slot →
      slot.constant? = none → Constraint.untainted.value registry id = 1 := by
    intro id slot hget hslot
    rw [Interpretation.value, hget, Option.bind_some, hslot]
    rfl
  have huntainted : Constraint.untainted.value registry leastSlot = 1 := by
    rw [Interpretation.value, hconstant]
    rfl
  obtain ⟨cnf, hequality, hinequality⟩ := encode_equality_eq_inequality hlast hlastVariable htwin
    htwinVariable hconstant rfl hopposite hrows .missing
  refine ⟨registry, hreachable, (hwf.mem_variableSlots hlast).mpr hlastVariable,
    (hwf.mem_variableSlots htwin).mpr htwinVariable, ?_, ?_, _, _, cnf,
    Constraint.relate_constant hlast hlastVariable hconstant rfl rfl .missing,
    Constraint.relate_constant htwin htwinVariable hconstant rfl rfl .missing,
    hequality, hinequality, Constraint.untainted, ?_, ?_, ?_⟩
  · rw [address, hlattice]
    decide
  · rw [hliteral]
    decide
  · exact fun id _ => hlattice ▸ Nat.one_lt_two
  · rw [Interpretation.eval, hvalue last hlast hlastVariable, huntainted]
    rfl
  · rw [Interpretation.eval, hvalue twin htwin htwinVariable, huntainted]
    rfl

end Sample

end Cnf

end Qualify
