import Qualify.Proofs.Clause.Bounds
import Qualify.Proofs.Clause.Renumbering
import Qualify.Proofs.Clause.Sameness

-- The room that clauses take depends on their shape only.
namespace Qualify

-- Whether 32 bits hold a literal, and whether they hold its negation.
def Literal.span (l : Literal) : Bool × Bool :=
  (isWord l, isNegatable l)

theorem Literal.span_neg (l : Int) : span (-l) = (span l).swap := by
  rw [span, isNegatable_neg]
  rfl

theorem Literal.span_of_isWithin {count : Nat} (hcount : count < 0x80000000) {l : Int}
    (h : isWithin count l = true) : span l = (true, true) := by
  have hneg : isWithin count (-l) = true := by rwa [isWithin_neg]
  rw [span, isNegatable, isWord_of_isWithin hcount h, isWord_of_isWithin hcount hneg]

namespace Clause

def shape (clauses : List Clause) : List (List (Bool × Bool)) :=
  clauses.map (·.map Literal.span)

@[simp] theorem shape_append (clauses others : List Clause) :
    shape (clauses ++ others) = shape clauses ++ shape others :=
  List.map_append

theorem shape_map_append (clauses : List Clause) (ending : Clause) :
    shape (clauses.map (· ++ ending)) = (shape clauses).map (· ++ ending.map Literal.span) := by
  simp [shape, Function.comp_def]

theorem picked_map {α β : Type} (f : α → β) (lists : List (List α)) :
    picked (lists.map (·.map f)) = (picked lists).map f := by
  have hempty : ((fun list : List β => list.isEmpty) ∘ fun list : List α => list.map f) =
      fun list => list.isEmpty := by
    funext list
    exact List.isEmpty_map
  have hfull : ((fun list : List β => !list.isEmpty) ∘ fun list : List α => list.map f) =
      fun list => !list.isEmpty := by
    funext list
    exact congrArg _ List.isEmpty_map
  rw [picked, List.any_map, hempty, picked]
  split
  · rw [List.takeWhile_map, hfull, List.flatMap_map, List.map_flatMap]
    simp only [List.map_take]
  · exact List.map_flatten.symm

theorem shape_refutations_cons (clause : Clause) (rest : List Clause) :
    shape (refutations (clause :: rest)) = (clause.map Literal.span).flatMap fun span =>
      (shape (refutations rest)).map (span.swap :: ·) := by
  simp [shape, refutations, List.map_flatMap, List.flatMap_map, Function.comp_def, Literal.span_neg]

section Congr

variable {clauses others clauses' others' : List Clause}

theorem words_of_shape (h : shape clauses = shape others) (hwords : Words clauses) :
    Words others := by
  have hiff : ∀ clauses : List Clause, Words clauses ↔
      ∀ spans ∈ shape clauses, ∀ span ∈ spans, span.1 = true := by
    intro clauses
    simp only [shape, List.forall_mem_map]
    rfl
  rw [hiff, ← h, ← hiff]
  exact hwords

theorem all_isNegatable_of_shape (h : shape clauses = shape others)
    (hall : (picked clauses).all Literal.isNegatable = true) :
    (picked others).all Literal.isNegatable = true := by
  have heq : ∀ clauses : List Clause,
      (picked clauses).all Literal.isNegatable = (picked (shape clauses)).all (·.2) := by
    intro clauses
    rw [shape, picked_map, List.all_map]
    rfl
  rw [heq, ← h, ← heq]
  exact hall

theorem length_of_shape (h : shape clauses = shape others) : clauses.length = others.length := by
  have hlength := congrArg List.length h
  rwa [shape, List.length_map, shape, List.length_map] at hlength

theorem shape_refutations_congr (h : shape clauses = shape others) :
    shape (refutations clauses) = shape (refutations others) := by
  induction clauses generalizing others with
  | nil =>
      obtain rfl := List.map_eq_nil_iff.mp h.symm
      rfl
  | cons clause rest ih =>
      cases others with
      | nil => cases h
      | cons other others =>
          obtain ⟨hfirst, hrest⟩ := List.cons.inj h
          have hspans : clause.map Literal.span = other.map Literal.span := hfirst
          rw [shape_refutations_cons, shape_refutations_cons, hspans, ih hrest]

theorem picks_of_shape (h : shape clauses = shape others) : picks clauses = picks others := by
  rw [← length_refutations, ← length_refutations, length_of_shape (shape_refutations_congr h)]

theorem HasRoom.of_shape (h : shape clauses = shape others) (h' : shape clauses' = shape others')
    (hroom : HasRoom clauses clauses') : HasRoom others others' where
  picks_le := picks_of_shape h ▸ hroom.picks_le
  product_le := by
    rw [← picks_of_shape h, ← length_of_shape h']
    exact hroom.product_le
  take_lt n hn := by
    have htake : shape (clauses.take n) = shape (others.take n) := by
      rw [shape, List.map_take, shape, List.map_take]
      exact congrArg (List.take n) h
    rw [← picks_of_shape htake]
    exact hroom.take_lt n (length_of_shape h ▸ hn)

theorem shape_implying_congr (h : shape clauses = shape others)
    (h' : shape clauses' = shape others') :
    shape (implying clauses clauses') = shape (implying others others') := by
  have heq : ∀ assumptions conclusions : List Clause, shape (implying assumptions conclusions) =
      (shape (refutations assumptions)).flatMap fun spans =>
        (shape conclusions).map (spans ++ ·) := by
    intro assumptions conclusions
    simp [implying, shape, List.map_flatMap, List.flatMap_map, Function.comp_def]
  rw [heq, heq, shape_refutations_congr h, h']

end Congr

end Clause

namespace Numbering

variable {numbering other : Numbering} {lattice : Lattice}

theorem span_literal_of_isWord_neg {id : SlotId} {q : Qualifier}
    (h : Literal.isWord (-numbering.literal id q) = true) :
    Literal.span (numbering.literal id q) = (true, true) := by
  have hword : Literal.isWord (numbering.literal id q) = true := Literal.isWord_narrow _
  rw [Literal.span, Literal.isNegatable, h, hword]

theorem span_neg_literal_of_isWord {id : SlotId} {q : Qualifier}
    (h : Literal.isWord (-numbering.literal id q) = true) :
    Literal.span (-numbering.literal id q) = (true, true) := by
  rw [Literal.span_neg, span_literal_of_isWord_neg h]
  rfl

-- Where the negations are words, nothing but the number of the literals can be seen.
theorem shape_variableVariableClauses {kind : Relation} {first second : SlotId}
    (hwords : Words (numbering.variableVariableClauses lattice kind first second)) :
    Clause.shape (numbering.variableVariableClauses lattice kind first second) =
      (numbering.variableVariableClauses lattice kind first second).map fun clause =>
        List.replicate clause.length (true, true) := by
  have hpair : ∀ p q,
      (∀ l ∈ [-numbering.literal first p, -numbering.literal second q], Literal.isWord l = true) →
      [-numbering.literal first p, -numbering.literal second q].map Literal.span =
        [(true, true), (true, true)] := by
    intro p q hpair
    have hfirst := hpair _ List.mem_cons_self
    have hsecond := hpair _ (List.mem_cons_of_mem _ List.mem_cons_self)
    rw [List.map_cons, List.map_cons, span_neg_literal_of_isWord hfirst,
      span_neg_literal_of_isWord hsecond, List.map_nil]
  have hpairs : ∀ allowed : Qualifier → Qualifier → Bool,
      Words (numbering.forbidPairs lattice first second allowed) →
      ∀ clause ∈ numbering.forbidPairs lattice first second allowed,
        clause.map Literal.span = List.replicate clause.length (true, true) := by
    intro allowed hwords clause hclause
    obtain ⟨p, _, hmem⟩ := List.mem_flatMap.mp hclause
    obtain ⟨q, _, rfl⟩ := List.mem_map.mp hmem
    exact hpair p q (hwords _ hclause)
  refine List.map_congr_left fun clause hclause => ?_
  cases kind with
  | comparable => exact hpairs _ hwords clause hclause
  | subtype => exact hpairs _ hwords clause hclause
  | inequality =>
      obtain ⟨q, _, rfl⟩ := List.mem_map.mp hclause
      exact hpair q q (hwords _ hclause)
  | equality =>
      obtain ⟨q, hq, hmem⟩ := List.mem_flatMap.mp hclause
      have hfirst := hwords _ (List.mem_flatMap.mpr ⟨q, hq, List.mem_cons_self⟩) _
        List.mem_cons_self
      have hsecond := hwords _
        (List.mem_flatMap.mpr ⟨q, hq, List.mem_cons_of_mem _ List.mem_cons_self⟩) _
        List.mem_cons_self
      rcases List.mem_pair.mp hmem with rfl | rfl
      · exact congrArg₂ (fun a b => [a, b]) (span_neg_literal_of_isWord hfirst)
          (span_literal_of_isWord_neg hsecond)
      · exact congrArg₂ (fun a b => [a, b]) (span_neg_literal_of_isWord hsecond)
          (span_literal_of_isWord_neg hfirst)

theorem map_length_variableVariableClauses (kind : Relation) (first second : SlotId) :
    (numbering.variableVariableClauses lattice kind first second).map (·.length) =
      (numbering.variableVariableClauses lattice kind second first).map (·.length) := by
  cases kind <;> simp [variableVariableClauses, forbidPairs, List.map_flatMap, Function.comp_def]

-- Against a constant the clauses of a symmetric relation do not change at all; between two
-- variables they are permuted, so that only their lengths count.
theorem relationClauses_swap_of_words {kind : Relation} (hsymmetric : kind.isSymmetric = true)
    {route : RelationRoute} (hwords : Words (numbering.relationClauses lattice kind route)) :
    Words (numbering.relationClauses lattice kind route.swap) ∧
      Clause.shape (numbering.relationClauses lattice kind route) =
        Clause.shape (numbering.relationClauses lattice kind route.swap) := by
  have hconstant := @variableConstantClauses_of_isSymmetric numbering lattice kind hsymmetric
  cases route with
  | constantVariable q id =>
      simp only [RelationRoute.swap, relationClauses, hconstant, and_true] at hwords ⊢
      exact hwords
  | variableConstant id q =>
      simp only [RelationRoute.swap, relationClauses, hconstant, and_true] at hwords ⊢
      exact hwords
  | variableVariable first second =>
      have hwords' := (variableVariableClauses_recurs hsymmetric second first).words hwords
      have hshape : ∀ clauses : List Clause,
          (clauses.map fun clause => List.replicate clause.length (true, true)) =
            (clauses.map (·.length)).map (List.replicate · (true, true)) := by
        intro clauses
        rw [List.map_map]
        rfl
      refine ⟨hwords', ?_⟩
      rw [RelationRoute.swap, relationClauses, relationClauses,
        shape_variableVariableClauses hwords, shape_variableVariableClauses hwords', hshape, hshape,
        map_length_variableVariableClauses]

-- A potential slot that one numbering has a word for is no wider in another one.
def Matches (numbering other : Numbering) (potential : SlotId) : Prop :=
  numbering.presence? potential = .ok (numbering.presence potential) →
    other.presence? potential = .ok (other.presence potential) ∧
      Literal.span (numbering.presence potential) = Literal.span (other.presence potential)

end Numbering

namespace Constraint

variable {registry : Registry} {numbering other : Numbering}

-- By induction on the pairs of parts: the width check looks at the shape only, and extending by
-- endings of one span keeps shapes equal.
theorem exists_clausesOfAll_of_same {parts parts' : List Constraint}
    (h : List.Forall₂ (fun c d : Constraint =>
      (∀ p, Visit.potential p ∈ c.visits → numbering.Matches other p) →
      ∀ cs, clausesWith registry numbering c = .ok cs →
        ∃ ds, clausesWith registry other d = .ok ds ∧ Clause.shape cs = Clause.shape ds)
      parts parts')
    (hmatches : ∀ p, Visit.potential p ∈ visitsOfAll parts → numbering.Matches other p)
    {ending ending' : Clause} (hending : ending.map Literal.span = ending'.map Literal.span)
    {all : List Clause} (hall : clausesOfAll registry numbering ending parts = .ok all) :
    ∃ all', clausesOfAll registry other ending' parts' = .ok all' ∧
      Clause.shape all = Clause.shape all' := by
  induction h generalizing all with
  | nil =>
      cases hall
      exact ⟨[], rfl, rfl⟩
  | cons hfirst _ ih =>
      obtain ⟨cs, others, hcs, hwords, hothers, rfl⟩ := clausesOfAll_cons_eq_ok.mp hall
      obtain ⟨ds, hds, hshape⟩ :=
        hfirst (fun p hp => hmatches p (List.mem_append_left _ hp)) cs hcs
      obtain ⟨others', hothers', hshape'⟩ :=
        ih (fun p hp => hmatches p (List.mem_append_right _ hp)) hothers
      have hextended : Clause.shape (cs.map (· ++ ending)) =
          Clause.shape (ds.map (· ++ ending')) := by
        rw [Clause.shape_map_append, Clause.shape_map_append, hshape, hending]
      refine ⟨_, clausesOfAll_cons_eq_ok.mpr
        ⟨ds, others', hds, Clause.words_of_shape hextended hwords, hothers', rfl⟩, ?_⟩
      rw [Clause.shape_append, Clause.shape_append, hextended, hshape']

-- Constraints that are the same take the same room, and it does not depend on the numbers of the
-- potential slots.
theorem exists_clausesWith_of_same (hsize : numbering.size = other.size) {c d : Constraint}
    (h : c.same d = true)
    (hmatches : ∀ p, Visit.potential p ∈ c.visits → numbering.Matches other p) {cs : List Clause}
    (hcs : clausesWith registry numbering c = .ok cs) :
    ∃ ds, clausesWith registry other d = .ok ds ∧ Clause.shape cs = Clause.shape ds := by
  refine same_induction (motive := fun c d =>
    (∀ p, Visit.potential p ∈ c.visits → numbering.Matches other p) →
    ∀ cs, clausesWith registry numbering c = .ok cs →
      ∃ ds, clausesWith registry other d = .ok ds ∧ Clause.shape cs = Clause.shape ds)
    ?_ ?_ ?_ ?_ ?_ ?_ ?_ ?_ h hmatches cs hcs
  · exact fun _ cs hcs => ⟨cs, hcs, rfl⟩
  · exact fun _ cs hcs => ⟨cs, hcs, rfl⟩
  · intro kind first second location location' _ cs hcs
    obtain ⟨route, hroute, hwords, rfl⟩ := clausesWith_relation_eq_ok.mp hcs
    rw [Numbering.relationClauses_congr hsize] at hwords ⊢
    exact ⟨_, clausesWith_relation_eq_ok.mpr
      ⟨route, Registry.relationRoute_congr hroute, hwords, rfl⟩, rfl⟩
  · intro kind first second location location' hsymmetric _ cs hcs
    obtain ⟨route, hroute, hwords, rfl⟩ := clausesWith_relation_eq_ok.mp hcs
    rw [Numbering.relationClauses_congr hsize] at hwords ⊢
    obtain ⟨hwords', hshape⟩ := Numbering.relationClauses_swap_of_words hsymmetric hwords
    exact ⟨_, clausesWith_relation_eq_ok.mpr
      ⟨route.swap, Registry.relationRoute_swap hroute, hwords', rfl⟩, hshape⟩
  · intro table left right result location location' _ cs hcs
    obtain ⟨operands, hoperands, hwords, rfl⟩ := clausesWith_function_eq_ok.mp hcs
    rw [Numbering.functionClauses_congr hsize] at hwords ⊢
    exact ⟨_, clausesWith_function_eq_ok.mpr
      ⟨operands, Registry.functionRoute_congr hoperands, hwords, rfl⟩, rfl⟩
  · intro subject goal q q' weight weight' location location' _ cs hcs
    cases hcs
  · intro potential present present' absent absent' location location' hpresent habsent hmatches
      cs hcs
    rw [visits] at hmatches
    obtain ⟨hword, ps, as, hps, has, rfl⟩ := clausesWith_existential_eq_ok.mp hcs
    obtain ⟨hword', hspan⟩ := hmatches potential List.mem_cons_self hword
    have hpresence : [numbering.presence potential].map Literal.span =
        [other.presence potential].map Literal.span :=
      congrArg (fun span => [span]) hspan
    have habsence : [-numbering.presence potential].map Literal.span =
        [-other.presence potential].map Literal.span := by
      rw [List.map_singleton, Literal.span_neg, hspan, ← Literal.span_neg]
      rfl
    obtain ⟨ps', hps', hshape⟩ := exists_clausesOfAll_of_same hpresent
      (fun p hp => hmatches p (List.mem_cons_of_mem _ (List.mem_append_left _ hp)))
      habsence hps
    obtain ⟨as', has', hshape'⟩ := exists_clausesOfAll_of_same habsent
      (fun p hp => hmatches p (List.mem_cons_of_mem _ (List.mem_append_right _ hp)))
      hpresence has
    refine ⟨_, clausesWith_existential_eq_ok.mpr ⟨hword', ps', as', hps', has', rfl⟩, ?_⟩
    rw [Clause.shape_append, Clause.shape_append, hshape, hshape']
  · intro assumptions assumptions' conclusion conclusion' location location' hassumptions
      hconclusion hmatches _ hclauses
    rw [visits] at hmatches
    obtain ⟨as, cs, has, hcs, hnegatable, hroom, rfl⟩ := clausesWith_implication_eq_ok.mp hclauses
    obtain ⟨as', has', hshape⟩ := exists_clausesOfAll_of_same hassumptions
      (fun p hp => hmatches p (List.mem_append_left _ hp)) rfl has
    obtain ⟨cs', hcs', hshape'⟩ := hconclusion
      (fun p hp => hmatches p (List.mem_append_right _ hp)) cs hcs
    exact ⟨_, clausesWith_implication_eq_ok.mpr ⟨as', cs', has', hcs',
      Clause.all_isNegatable_of_shape hshape hnegatable, hroom.of_shape hshape hshape', rfl⟩,
      Clause.shape_implying_congr hshape hshape'⟩

theorem clausesWith_isOk_of_fits {registry : Registry} (hfits : numbering.Fits registry)
    (hother : other.Fits registry) {c : Constraint} (hcovered : Covered numbering c)
    (hcovered' : Covered other c) {cs : List Clause}
    (hcs : clausesWith registry numbering c = .ok cs) :
    ∃ ds, clausesWith registry other c = .ok ds := by
  have hsize := hfits.size_eq.trans hother.size_eq.symm
  have hmatches : ∀ p, Visit.potential p ∈ c.visits → numbering.Matches other p := by
    intro p hp _
    refine ⟨hother.presence?_eq (hcovered' p hp), ?_⟩
    rw [Literal.span_of_isWithin hfits.count_lt (hfits.presence_isWithin (hcovered p hp)),
      Literal.span_of_isWithin hother.count_lt (hother.presence_isWithin (hcovered' p hp))]
  obtain ⟨ds, hds, -⟩ := exists_clausesWith_of_same hsize (same_refl c) hmatches hcs
  exact ⟨ds, hds⟩

theorem exists_clausesWith_alike {c d : Constraint} (h : c.same d = true) {cs : List Clause}
    (hcs : clausesWith registry numbering c = .ok cs) :
    ∃ ds, clausesWith registry numbering d = .ok ds ∧ ∀ valuation, Alike valuation cs ds := by
  obtain ⟨ds, hds, -⟩ := exists_clausesWith_of_same rfl h (fun p _ hword => ⟨hword, rfl⟩) hcs
  exact ⟨ds, hds, fun valuation => idealClauses_alike h (idealClauses_of_clausesWith hcs)
    (idealClauses_of_clausesWith hds)⟩

end Constraint

end Qualify
