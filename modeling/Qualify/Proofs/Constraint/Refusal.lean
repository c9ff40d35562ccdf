import Qualify.Proofs.Constraint.Store
import Qualify.Proofs.Slot.Adjacency
import Qualify.Proofs.Slot.Repetition

namespace Qualify

section History

variable {σ ι ε α : Type} (step : σ → ι → Except ε α × σ)

def history (state : σ) : List ι → List (Except ε α) × σ
  | [] => ([], state)
  | request :: rest =>
      let (answers, last) := history (step state request).2 rest
      ((step state request).1 :: answers, last)

def granted (state : σ) : List ι → List ι
  | [] => []
  | request :: rest =>
      if (step state request).1.isOk then request :: granted (step state request).2 rest
      else granted (step state request).2 rest

variable {step}

-- Where a refusal changes nothing, a history can be told without the refusals.
theorem history_granted {requests : List ι}
    (hstep : ∀ state, ∀ request ∈ requests, ∀ e, (step state request).1 = .error e →
      (step state request).2 = state) (state : σ) :
    history step state (granted step state requests) =
      ((history step state requests).1.filter (·.isOk), (history step state requests).2) := by
  induction requests generalizing state with
  | nil => rfl
  | cons request rest ih =>
      obtain ⟨hfirst, hrest⟩ := List.forall_mem_cons.mp fun request h state => hstep state request h
      have ih := ih fun state request h => hrest request h state
      cases hanswer : (step state request).1 with
      | error e =>
          have hsame := hfirst state e hanswer
          have hrefused : (Except.error e : Except ε α).isOk = false := rfl
          simp only [granted, history, hanswer, hrefused, hsame, ih, List.filter_cons,
            Bool.false_eq_true, if_false]
      | ok a =>
          have hok : (Except.ok a : Except ε α).isOk = true := rfl
          simp only [granted, history, hanswer, hok, ih, List.filter_cons, if_true]

end History

namespace Registry

-- To store the constants is to create several slots, of which the first ones stay if there are no
-- numbers left for the others. Every other request is for one thing.
def Request.isSingle : Request → Bool
  | .storeConstants => false
  | _ => true

def respond (registry : Registry) (request : Request) : Except SlotError Response × Registry :=
  (registry.answer request, registry.after request)

theorem Outcome.of_error {registry : Registry} {location : Location} {kind : SlotKind}
    {answer : Answer} (h : Outcome registry location kind answer) {e : SlotError}
    (herror : answer.1 = .error e) : answer.2 = registry := by
  cases h with
  | refused e => rfl
  | known hkey hfind => cases herror
  | added h => cases herror

section Refused

variable {registry : Registry} {e : SlotError}

theorem resolve_of_error {annot : Annot} (h : (registry.resolve annot).1 = .error e) :
    (registry.resolve annot).2 = registry := by
  cases annot with
  | placeholder id => rfl
  | named name =>
      simp only [resolve] at h ⊢
      cases hfind : registry.lattice.find? name with
      | none => rfl
      | some q =>
          simp only [hfind] at h ⊢
          exact (createConstant_outcome registry q).of_error h

theorem resolveText_of_error {text : String} (h : (registry.resolveText text).1 = .error e) :
    (registry.resolveText text).2 = registry := by
  unfold resolveText at h ⊢
  cases hparse : Annot.parse text with
  | none => rfl
  | some annot =>
      simp only [hparse] at h ⊢
      exact resolve_of_error h

-- Every request but the one that stores all constants makes at most one slot, and fails before it
-- does.
theorem after_of_error {request : Request} (hsingle : request.isSingle = true)
    (h : registry.answer request = .error e) : registry.after request = registry := by
  cases request with
  | sourceVariable location declaredType insertable =>
      exact (createSourceVariable_outcome registry location declaredType insertable).of_error
        (Except.map_eq_error.mp h)
  | polyInvoke location =>
      exact (createPolyInvoke_outcome registry location).of_error (Except.map_eq_error.mp h)
  | refinement location refined =>
      exact (createRefinement_outcome registry location refined).of_error (Except.map_eq_error.mp h)
  | arithmetic location =>
      exact (createArithmetic_outcome registry location).of_error (Except.map_eq_error.mp h)
  | constant q => exact (createConstant_outcome registry q).of_error (Except.map_eq_error.mp h)
  | existential potential alternative =>
      exact (createExistential_outcome registry potential alternative).of_error
        (Except.map_eq_error.mp h)
  | combine receiver declared =>
      exact (createCombine_outcome registry receiver declared).of_error (Except.map_eq_error.mp h)
  | lub left right =>
      exact (createLub_outcome registry left right).of_error (Except.map_eq_error.mp h)
  | storeConstants => cases hsingle
  | equivalentAnnot q =>
      exact (createConstant_outcome registry q).of_error
        (Except.map_eq_error.mp (Except.map_eq_error.mp h))
  | resolve annot => exact resolve_of_error (Except.map_eq_error.mp h)
  | resolveText text => exact resolveText_of_error (Except.map_eq_error.mp h)

end Refused

end Registry

namespace ConstraintStore

inductive Addition where
  | constraint (c : Constraint)
  | relation (registry : Registry) (kind : Relation) (first second : SlotId) (location : Location)

def accept (store : ConstraintStore) : Addition → Except ConstraintError Bool × ConstraintStore
  | .constraint c => store.add c
  | .relation registry kind first second location =>
      store.addRelation registry kind first second location

variable {store : ConstraintStore} {e : ConstraintError}

theorem add_of_error {c : Constraint} (h : (store.add c).1 = .error e) :
    (store.add c).2 = store := by
  rcases add_cases store c with ⟨-, heq⟩ | ⟨-, -, heq⟩ | ⟨-, i, -, heq⟩
  · rw [heq]
  · rw [heq] at h
    cases h
  · rw [heq] at h
    cases h

theorem addRelation_of_error {registry : Registry} {kind : Relation} {first second : SlotId}
    {location : Location}
    (h : (store.addRelation registry kind first second location).1 = .error e) :
    (store.addRelation registry kind first second location).2 = store := by
  unfold addRelation at h ⊢
  split at h
  · rfl
  · split at h
    · rename_i hfalse
      rw [if_pos hfalse]
    · rename_i hstored
      rw [if_neg hstored]
      exact add_of_error h

end ConstraintStore

section Refusal

open Registry ConstraintStore

-- A request for a slot or an annotation that fails leaves the registry as it was, and so does an
-- addition that fails with the store. So the failures could as well be left out of any history.
theorem refused_leaves_no_trace :
    (∀ (registry : Registry) (request : Request) (e : SlotError), request.isSingle = true →
      registry.answer request = .error e → registry.after request = registry) ∧
    (∀ (store : ConstraintStore) (c : Constraint) (e : ConstraintError),
      (store.add c).1 = .error e → (store.add c).2 = store) ∧
    (∀ (store : ConstraintStore) (registry : Registry) (kind : Relation) (first second : SlotId)
      (location : Location) (e : ConstraintError),
      (store.addRelation registry kind first second location).1 = .error e →
        (store.addRelation registry kind first second location).2 = store) ∧
    (∀ (registry : Registry) (requests : List Request),
      (∀ request ∈ requests, request.isSingle = true) →
      history respond registry (granted respond registry requests) =
        ((history respond registry requests).1.filter (·.isOk),
          (history respond registry requests).2)) ∧
    ∀ (store : ConstraintStore) (additions : List Addition),
      history accept store (granted accept store additions) =
        ((history accept store additions).1.filter (·.isOk),
          (history accept store additions).2) := by
  refine ⟨fun registry request e => after_of_error, fun store c e => add_of_error,
    fun store registry kind first second location e => addRelation_of_error, ?_, ?_⟩
  · intro registry requests hsingle
    exact history_granted (fun registry request hrequest e h =>
      after_of_error (hsingle request hrequest) h) registry
  · intro store additions
    refine history_granted (fun store addition _ e h => ?_) store
    cases addition with
    | constraint c => exact add_of_error h
    | relation registry kind first second location => exact addRelation_of_error h

def refusedRequests : List Request :=
  [.polyInvoke (.code "io" 1 1 ""), .equivalentAnnot 2, .arithmetic .missing,
    .existential taintedSlot sourceSlot, .resolveText "@Nullable", .lub sourceSlot joinSlot]

def sinkStore : ConstraintStore :=
  (ConstraintStore.empty.add (.relation .equality sourceSlot sinkSlot .missing)).2

theorem taint_refused_leaves_no_trace :
    refusedRequests.map taint.answer =
      [.error (.kindMismatch sourceSlot (.code "io" 1 1 "") .polyInvoke .sourceVariable),
        .error (.foreignQualifier 2), .error (.missingLocation .arithmetic),
        .error (.notVariable taintedSlot), .error (.unknownAnnot "@Nullable"),
        .error (.unknownSlot joinSlot)] ∧
      (∀ request ∈ refusedRequests, taint.after request = taint) ∧
      (history respond taint (refusedRequests ++ [.lub sourceSlot sinkSlot])).2 =
        taint.after (.lub sourceSlot sinkSlot) ∧
      (sinkStore.add .alwaysFalse).1 = .error (.unsatisfiable "false" .missing) ∧
      (sinkStore.add .alwaysFalse).2 = sinkStore ∧
      (∃ text, (sinkStore.addRelation taint .subtype taintedSlot untaintedSlot .missing).1 =
        .error (.unsatisfiable text .missing)) ∧
      (sinkStore.addRelation taint .subtype taintedSlot untaintedSlot .missing).2 = sinkStore := by
  obtain ⟨hregistry, hadd, hrelation, hhistory, -⟩ := refused_leaves_no_trace
  have hsingle : ∀ request ∈ refusedRequests ++ [.lub sourceSlot sinkSlot],
      request.isSingle = true := by
    simp [refusedRequests, Request.isSingle]
  have hwhole := congrArg Prod.snd (hhistory taint _ hsingle)
  refine ⟨rfl, fun request hrequest => ?_, hwhole.symm, rfl, hadd _ _ _ rfl, ⟨_, rfl⟩,
    hrelation _ _ _ _ _ _ _ rfl⟩
  simp only [refusedRequests, List.mem_cons, List.not_mem_nil, or_false] at hrequest
  rcases hrequest with rfl | rfl | rfl | rfl | rfl | rfl <;> exact hregistry _ _ _ rfl rfl

end Refusal

end Qualify
