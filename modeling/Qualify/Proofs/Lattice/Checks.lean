import Mathlib.Data.List.GetD
import Mathlib.Data.List.Nodup
import Qualify.Proofs.Lattice.Closed
import Qualify.Proofs.Lattice.Order
import Qualify.Proofs.Lattice.Reachability

namespace Qualify.Lattice

-- The checks of a declaration, in the order in which they are made.
inductive Check where
  | nonempty
  | distinct
  | edgeNames
  | acyclic
  | joins
  | entryNames

def Check.all : List Check :=
  [.nonempty, .distinct, .edgeNames, .acyclic, .joins, .entryNames]

namespace Declaration

variable (declaration : Declaration)

def Below : String → String → Prop :=
  Relation.ReflTransGen fun sub sup => (sub, sup) ∈ declaration.edges

structure LeastAbove (a b c : String) : Prop where
  mem : c ∈ declaration.names
  left : declaration.Below a c
  right : declaration.Below b c
  least : ∀ d ∈ declaration.names, declaration.Below a d → declaration.Below b d →
    declaration.Below c d

def viewNames : List String :=
  declaration.views.flatMap fun entry => [entry.1, entry.2.1, entry.2.2]

def operationNames : List String :=
  declaration.operations.flatMap fun entry => [entry.2.1, entry.2.2.1, entry.2.2.2]

def entryNames : List String :=
  declaration.viewNames ++ declaration.operationNames

def Passes : Check → Prop
  | .nonempty => declaration.names ≠ []
  | .distinct => declaration.names.Nodup
  | .edgeNames => ∀ edge ∈ declaration.edges, edge.1 ∈ declaration.names ∧ edge.2 ∈ declaration.names
  | .acyclic => ∀ a ∈ declaration.names, ∀ b ∈ declaration.names,
      declaration.Below a b → declaration.Below b a → a = b
  | .joins => ∀ a ∈ declaration.names, ∀ b ∈ declaration.names, ∃ c, declaration.LeastAbove a b c
  | .entryNames => ∀ name ∈ declaration.entryNames, name ∈ declaration.names

-- The error names what is wrong, and that is what the check looks for.
inductive Reports : Error → Check → Prop
  | empty (h : declaration.names = []) : Reports .empty .nonempty
  | duplicate {name : String} (h : 1 < declaration.names.count name) :
      Reports (.duplicateQualifier name) .distinct
  | edge {edge : String × String} {name : String} (hedge : edge ∈ declaration.edges)
      (hname : name = edge.1 ∨ name = edge.2) (h : name ∉ declaration.names) :
      Reports (.unknownQualifier name) .edgeNames
  | cycle {a b : String} (ha : a ∈ declaration.names) (hb : b ∈ declaration.names) (hne : a ≠ b)
      (hab : declaration.Below a b) (hba : declaration.Below b a) :
      Reports (.subtypeCycle a b) .acyclic
  | noJoin {a b : String} (ha : a ∈ declaration.names) (hb : b ∈ declaration.names)
      (h : ∀ c, ¬declaration.LeastAbove a b c) : Reports (.missingLeastUpperBound a b) .joins
  | entry {name : String} (hname : name ∈ declaration.entryNames) (h : name ∉ declaration.names) :
      Reports (.unknownQualifier name) .entryNames

variable {declaration}

theorem Reports.not_passes {e : Error} {check : Check} (h : declaration.Reports e check) :
    ¬declaration.Passes check := by
  intro hpasses
  cases h with
  | empty h => exact hpasses h
  | duplicate h => exact Nat.not_le_of_lt h (List.nodup_iff_count_le_one.mp hpasses _)
  | edge hedge hname h =>
      rcases hname with rfl | rfl
      · exact h (hpasses _ hedge).1
      · exact h (hpasses _ hedge).2
  | cycle ha hb hne hab hba => exact hne (hpasses _ ha _ hb hab hba)
  | noJoin ha hb h =>
      obtain ⟨c, hc⟩ := hpasses _ ha _ hb
      exact h c hc
  | entry hname h => exact h (hpasses _ hname)

end Declaration

section Names

variable {names : List String}

theorem getD_mem {a : Nat} (ha : a < names.length) : names.getD a "" ∈ names := by
  rw [List.getD_eq_getElem names "" ha]
  exact List.getElem_mem ha

theorem getD_idxOf {name : String} (h : name ∈ names) :
    names.getD (names.idxOf name) "" = name := by
  rw [List.getD_eq_getElem names "" (List.idxOf_lt_length_of_mem h)]
  exact List.getElem_idxOf _

theorem idxOf_getD (hdistinct : names.Nodup) {a : Nat} (ha : a < names.length) :
    names.idxOf (names.getD a "") = a := by
  rw [List.getD_eq_getElem names "" ha]
  exact hdistinct.idxOf_getElem a ha

theorem resolve_cases (names : List String) (name : String) :
    (name ∈ names ∧ resolve names name = .ok (names.idxOf name)) ∨
      (name ∉ names ∧ resolve names name = .error (.unknownQualifier name)) := by
  unfold resolve
  cases hfound : names.idxOf? name with
  | none => exact .inr ⟨List.idxOf?_eq_none_iff.mp hfound, rfl⟩
  | some q =>
      obtain ⟨hlt, hget, -⟩ := List.idxOf?_eq_some_iff.mp hfound
      refine .inl ⟨hget ▸ List.getElem_mem hlt, ?_⟩
      rw [List.idxOf_eq_getD_idxOf?, hfound]
      rfl

theorem checkNonempty_cases (names : List String) :
    (names ≠ [] ∧ checkNonempty names = .ok ()) ∨
      (names = [] ∧ checkNonempty names = .error .empty) := by
  cases names with
  | nil => exact .inr ⟨rfl, rfl⟩
  | cons name rest => exact .inl ⟨List.cons_ne_nil name rest, rfl⟩

theorem firstRepeated_eq_none {seen : List String} (h : firstRepeated seen names = none) :
    names.Nodup ∧ ∀ name ∈ names, name ∉ seen := by
  induction names generalizing seen with
  | nil => simp
  | cons name rest ih =>
      rw [firstRepeated] at h
      split at h
      · cases h
      · rename_i hseen
        obtain ⟨hnodup, hrest⟩ := ih h
        have hname : name ∉ seen := by simpa using hseen
        refine ⟨List.nodup_cons.mpr ⟨fun hmem => hrest name hmem List.mem_cons_self, hnodup⟩, ?_⟩
        exact List.forall_mem_cons.mpr
          ⟨hname, fun other hother hmem => hrest other hother (List.mem_cons_of_mem name hmem)⟩

-- The induction keeps what was seen: a name found again was seen before, and is then counted
-- twice in the whole list.
theorem firstRepeated_eq_some {seen : List String} {name : String}
    (h : firstRepeated seen names = some name) :
    name ∈ names ∧ (name ∈ seen ∨ 1 < names.count name) := by
  induction names generalizing seen with
  | nil => cases h
  | cons first rest ih =>
      rw [firstRepeated] at h
      split at h
      · rename_i hseen
        cases h
        exact ⟨List.mem_cons_self, .inl (by simpa using hseen)⟩
      · obtain ⟨hmem, hbefore⟩ := ih h
        refine ⟨List.mem_cons_of_mem first hmem, ?_⟩
        have hpos := List.count_pos_iff.mpr hmem
        rcases hbefore with hbefore | hcount
        · rcases List.mem_cons.mp hbefore with rfl | hseen
          · rw [List.count_cons_self]
            exact .inr (Nat.succ_lt_succ hpos)
          · exact .inl hseen
        · exact .inr (hcount.trans_le (List.count_le_count_cons))

theorem checkDistinct_cases (names : List String) :
    (names.Nodup ∧ checkDistinct names = .ok ()) ∨
      ∃ name, 1 < names.count name ∧ checkDistinct names = .error (.duplicateQualifier name) := by
  unfold checkDistinct
  split
  · rename_i name hname
    exact .inr ⟨name, (firstRepeated_eq_some hname).2.resolve_left List.not_mem_nil, rfl⟩
  · rename_i hnone
    exact .inl ⟨(firstRepeated_eq_none hnone).1, rfl⟩

end Names

theorem mem_pairs {size : Nat} {pair : Nat × Nat} :
    pair ∈ pairs size ↔ pair.1 < size ∧ pair.2 < size := by
  obtain ⟨a, b⟩ := pair
  simp [pairs]

-- Row after row, a pair stands where its cell is in a table.
theorem getElem?_pairs {size a b : Nat} (ha : a < size) (hb : b < size) :
    (pairs size)[a * size + b]? = some (a, b) := by
  have hrows : ∀ (items : List Nat) (row : Nat), row < items.length →
      (items.flatMap fun a => (List.range size).map fun b => (a, b))[row * size + b]? =
        (items[row]?).map (·, b) := by
    intro items
    induction items with
    | nil => simp
    | cons first rest ih =>
        intro row hrow
        rw [List.flatMap_cons]
        cases row with
        | zero =>
            rw [List.getElem?_append_left (by simpa using hb)]
            simp [hb]
        | succ row =>
            have hcell : (row + 1) * size + b = size + (row * size + b) := by
              rw [Nat.succ_mul]
              omega
            rw [hcell, List.getElem?_append_right (by simp)]
            simpa using ih row (Nat.lt_of_succ_lt_succ hrow)
  rw [pairs, hrows (List.range size) a (by simpa using ha), List.getElem?_range ha]
  rfl

theorem resolveEdge_cases (names : List String) (edge : String × String) :
    ((edge.1 ∈ names ∧ edge.2 ∈ names) ∧
        resolveEdge names edge = .ok (names.idxOf edge.1, names.idxOf edge.2)) ∨
      ∃ name, (name = edge.1 ∨ name = edge.2) ∧ name ∉ names ∧
        resolveEdge names edge = .error (.unknownQualifier name) := by
  rcases resolve_cases names edge.1 with ⟨hsub, hfirst⟩ | ⟨hsub, hfirst⟩
  · rcases resolve_cases names edge.2 with ⟨hsup, hsecond⟩ | ⟨hsup, hsecond⟩
    · exact .inl ⟨⟨hsub, hsup⟩, (Except.bind_of_ok hfirst).trans (Except.bind_of_ok hsecond)⟩
    · exact .inr ⟨edge.2, .inr rfl, hsup,
        (Except.bind_of_ok hfirst).trans (Except.bind_of_error hsecond)⟩
  · exact .inr ⟨edge.1, .inl rfl, hsub, Except.bind_of_error hfirst⟩

-- The result is looked up before the operands, so that its name is the first to be reported.
theorem setEntry_cases (names : List String) (table : Table Qualifier) (left right result : String) :
    ((∀ name ∈ [left, right, result], name ∈ names) ∧
        ∃ after, setEntry names table left right result = .ok after) ∨
      ∃ name ∈ [left, right, result], name ∉ names ∧
        setEntry names table left right result = .error (.unknownQualifier name) := by
  rcases resolve_cases names result with ⟨hresult, hfirst⟩ | ⟨hresult, hfirst⟩
  · rcases resolve_cases names left with ⟨hleft, hsecond⟩ | ⟨hleft, hsecond⟩
    · rcases resolve_cases names right with ⟨hright, hthird⟩ | ⟨hright, hthird⟩
      · refine .inl ⟨by simp [hleft, hright, hresult],
          table.set (names.idxOf left) (names.idxOf right) (names.idxOf result), ?_⟩
        exact (Except.bind_of_ok hfirst).trans
          ((Except.bind_of_ok hsecond).trans (Except.bind_of_ok hthird))
      · exact .inr ⟨right, by simp, hright, (Except.bind_of_ok hfirst).trans
          ((Except.bind_of_ok hsecond).trans (Except.bind_of_error hthird))⟩
    · exact .inr ⟨left, by simp, hleft,
        (Except.bind_of_ok hfirst).trans (Except.bind_of_error hsecond)⟩
  · exact .inr ⟨result, by simp, hresult, Except.bind_of_error hfirst⟩

-- Entries are made one after another, and the first one with an undeclared name ends it.
theorem foldEntries_cases {α β : Type} {names : List String} {step : β → α → Except Error β}
    {entryNames : α → List String}
    (hstep : ∀ table entry,
      ((∀ name ∈ entryNames entry, name ∈ names) ∧ ∃ after, step table entry = .ok after) ∨
        ∃ name ∈ entryNames entry, name ∉ names ∧
          step table entry = .error (.unknownQualifier name)) (entries : List α) (table : β) :
    ((∀ name ∈ entries.flatMap entryNames, name ∈ names) ∧
        ∃ after, entries.foldlM step table = .ok after) ∨
      ∃ name ∈ entries.flatMap entryNames, name ∉ names ∧
        entries.foldlM step table = .error (.unknownQualifier name) := by
  rcases Except.foldlM_cases step entries table with
    ⟨hok, hall⟩ | ⟨entry, hentry, before, e, he, herror⟩
  · refine .inl ⟨List.forall_mem_flatMap.mpr fun entry hentry => ?_, hok⟩
    obtain ⟨before, after, hset⟩ := hall entry hentry
    rcases hstep before entry with ⟨hnames, -⟩ | ⟨name, -, -, hfail⟩
    · exact hnames
    · cases hset.symm.trans hfail
  · rcases hstep before entry with ⟨-, after, hset⟩ | ⟨name, hname, hunknown, hfail⟩
    · cases he.symm.trans hset
    · cases he.symm.trans hfail
      exact .inr ⟨name, List.mem_flatMap.mpr ⟨entry, hentry, hname⟩, hunknown, herror⟩

theorem mem_upperBounds {order : Table Bool} {a b c : Qualifier} :
    c ∈ upperBounds order a b ↔
      c < order.size ∧ order.holds a c = true ∧ order.holds b c = true := by
  simp [upperBounds]

namespace Declaration

variable (declaration : Declaration)

def edgeIndices : List (Nat × Nat) :=
  declaration.edges.map fun edge =>
    (declaration.names.idxOf edge.1, declaration.names.idxOf edge.2)

def order : Table Bool :=
  Closure.closure declaration.names.length declaration.edgeIndices

-- Edges are resolved in order; the first with an unknown end decides the error.
theorem resolveEdges_cases :
    (declaration.Passes .edgeNames ∧
        declaration.edges.mapM (resolveEdge declaration.names) = .ok declaration.edgeIndices) ∨
      ∃ e, declaration.Reports e .edgeNames ∧
        declaration.edges.mapM (resolveEdge declaration.names) = .error e := by
  rcases Except.mapM_cases (resolveEdge declaration.names) declaration.edges with
    hall | ⟨edge, hedge, e, he, herror⟩
  · have hedges : ∀ edge ∈ declaration.edges,
        (edge.1 ∈ declaration.names ∧ edge.2 ∈ declaration.names) ∧
          resolveEdge declaration.names edge =
            .ok (declaration.names.idxOf edge.1, declaration.names.idxOf edge.2) := by
      intro edge hedge
      obtain ⟨pair, hpair⟩ := hall edge hedge
      rcases resolveEdge_cases declaration.names edge with hok | ⟨name, -, -, herror⟩
      · exact hok
      · cases hpair.symm.trans herror
    exact .inl ⟨fun edge hedge => (hedges edge hedge).1,
      Except.mapM_of_forall fun edge hedge => (hedges edge hedge).2⟩
  · rcases resolveEdge_cases declaration.names edge with ⟨-, hok⟩ | ⟨name, hname, hunknown, hfail⟩
    · cases he.symm.trans hok
    · cases he.symm.trans hfail
      exact .inr ⟨_, .edge hedge hname hunknown, herror⟩

section Order

variable {declaration} (hdistinct : declaration.Passes .distinct)
  (hedges : declaration.Passes .edgeNames)
include hdistinct hedges

-- The table of the order and the order of the names are the same.
theorem holds_order_iff {a b : Nat} (ha : a < declaration.names.length)
    (hb : b < declaration.names.length) :
    declaration.order.holds a b = true ↔
      declaration.Below (declaration.names.getD a "") (declaration.names.getD b "") := by
  have hindices : ∀ edge ∈ declaration.edgeIndices,
      edge.1 < declaration.names.length ∧ edge.2 < declaration.names.length := by
    refine List.forall_mem_map.mpr fun edge hedge => ?_
    obtain ⟨hsub, hsup⟩ := hedges edge hedge
    exact ⟨List.idxOf_lt_length_of_mem hsub, List.idxOf_lt_length_of_mem hsup⟩
  rw [order, Closure.holds_closure_iff hindices ha hb]
  constructor
  · intro hpath
    refine hpath.lift (declaration.names.getD · "") fun i j hindex => ?_
    obtain ⟨edge, hedge, heq⟩ := List.mem_map.mp hindex
    cases heq
    obtain ⟨hsub, hsup⟩ := hedges edge hedge
    have hnames : (declaration.names.getD (declaration.names.idxOf edge.1) "",
        declaration.names.getD (declaration.names.idxOf edge.2) "") ∈ declaration.edges := by
      rw [getD_idxOf hsub, getD_idxOf hsup]
      exact hedge
    exact hnames
  · intro hpath
    have hlift : Relation.ReflTransGen (fun i j => (i, j) ∈ declaration.edgeIndices)
        (declaration.names.idxOf (declaration.names.getD a ""))
        (declaration.names.idxOf (declaration.names.getD b "")) :=
      Relation.ReflTransGen.lift declaration.names.idxOf
        (fun sub sup hedge => List.mem_map.mpr ⟨(sub, sup), hedge, rfl⟩) _ _ hpath
    rwa [idxOf_getD hdistinct ha, idxOf_getD hdistinct hb] at hlift

theorem holds_order_idxOf {a b : String} (ha : a ∈ declaration.names)
    (hb : b ∈ declaration.names) :
    declaration.order.holds (declaration.names.idxOf a) (declaration.names.idxOf b) = true ↔
      declaration.Below a b := by
  rw [holds_order_iff hdistinct hedges (List.idxOf_lt_length_of_mem ha)
    (List.idxOf_lt_length_of_mem hb), getD_idxOf ha, getD_idxOf hb]

-- The check looks at pairs with the smaller index first, which covers every cycle since the order
-- is transitive.
theorem checkAcyclic_cases :
    (declaration.Passes .acyclic ∧ checkAcyclic declaration.names declaration.order = .ok ()) ∨
      ∃ e, declaration.Reports e .acyclic ∧
        checkAcyclic declaration.names declaration.order = .error e := by
  unfold checkAcyclic
  split
  · rename_i a b hfound
    obtain ⟨ha, hb⟩ := mem_pairs.mp (List.mem_of_find?_eq_some hfound)
    have hcycle := List.find?_some hfound
    simp only [Bool.and_eq_true, decide_eq_true_eq] at hcycle
    obtain ⟨⟨hlt, hab⟩, hba⟩ := hcycle
    refine .inr ⟨_, .cycle (getD_mem ha) (getD_mem hb) (fun heq => ?_)
      ((holds_order_iff hdistinct hedges ha hb).mp hab)
      ((holds_order_iff hdistinct hedges hb ha).mp hba), rfl⟩
    have hindex := congrArg declaration.names.idxOf heq
    rw [idxOf_getD hdistinct ha, idxOf_getD hdistinct hb] at hindex
    exact Nat.ne_of_lt hlt hindex
  · rename_i hnone
    refine .inl ⟨fun a ha b hb hab hba => ?_, rfl⟩
    -- Two names below each other are not found, whichever has the smaller index.
    have hlt : ∀ x ∈ declaration.names, ∀ y ∈ declaration.names, declaration.Below x y →
        declaration.Below y x → ¬declaration.names.idxOf x < declaration.names.idxOf y := by
      intro x hx y hy hxy hyx hlt
      refine List.find?_eq_none.mp hnone (declaration.names.idxOf x, declaration.names.idxOf y)
        (mem_pairs.mpr ⟨List.idxOf_lt_length_of_mem hx, List.idxOf_lt_length_of_mem hy⟩) ?_
      simp [hlt, (holds_order_idxOf hdistinct hedges hx hy).mpr hxy,
        (holds_order_idxOf hdistinct hedges hy hx).mpr hyx]
    have hindex : declaration.names.idxOf a = declaration.names.idxOf b :=
      Nat.le_antisymm (Nat.le_of_not_lt (hlt b hb a ha hba hab))
        (Nat.le_of_not_lt (hlt a ha b hb hab hba))
    rw [← getD_idxOf ha, hindex, getD_idxOf hb]

-- The candidate is below all upper bounds in the table; the names are distinct, so that the table
-- and the declared order agree.
theorem leastUpperBound?_eq_some {a b c : Nat} (ha : a < declaration.names.length)
    (hb : b < declaration.names.length) (h : leastUpperBound? declaration.order a b = some c) :
    c < declaration.names.length ∧ declaration.LeastAbove (declaration.names.getD a "")
      (declaration.names.getD b "") (declaration.names.getD c "") := by
  have hsize : declaration.order.size = declaration.names.length := closure_size _ _
  obtain ⟨hc, hac, hbc⟩ := mem_upperBounds.mp (List.mem_of_find?_eq_some h)
  rw [hsize] at hc
  refine ⟨hc, getD_mem hc, (holds_order_iff hdistinct hedges ha hc).mp hac,
    (holds_order_iff hdistinct hedges hb hc).mp hbc, fun d hd had hbd => ?_⟩
  have hindex := List.idxOf_lt_length_of_mem hd
  have hleast : (upperBounds declaration.order a b).all (declaration.order.holds c) = true :=
    List.find?_some (p := fun c => (upperBounds declaration.order a b).all _) h
  rw [← getD_idxOf hd] at had hbd ⊢
  rw [← holds_order_iff hdistinct hedges hc hindex]
  exact List.all_eq_true.mp hleast _ (mem_upperBounds.mpr ⟨hsize ▸ hindex,
    (holds_order_iff hdistinct hedges ha hindex).mpr had,
    (holds_order_iff hdistinct hedges hb hindex).mpr hbd⟩)

-- A declared join would have been found, at its own index.
theorem leastUpperBound?_eq_none {a b : Nat} (ha : a < declaration.names.length)
    (hb : b < declaration.names.length) (h : leastUpperBound? declaration.order a b = none)
    (c : String) : ¬declaration.LeastAbove (declaration.names.getD a "")
      (declaration.names.getD b "") c := by
  have hsize : declaration.order.size = declaration.names.length := closure_size _ _
  intro hjoin
  have hindex := List.idxOf_lt_length_of_mem hjoin.mem
  have hleft := hjoin.left
  have hright := hjoin.right
  rw [← getD_idxOf hjoin.mem] at hleft hright
  refine List.find?_eq_none.mp h (declaration.names.idxOf c) (mem_upperBounds.mpr ⟨hsize ▸ hindex,
    (holds_order_iff hdistinct hedges ha hindex).mpr hleft,
    (holds_order_iff hdistinct hedges hb hindex).mpr hright⟩) ?_
  refine List.all_eq_true.mpr fun d hd => ?_
  obtain ⟨hd, had, hbd⟩ := mem_upperBounds.mp hd
  rw [hsize] at hd
  rw [holds_order_iff hdistinct hedges hindex hd, getD_idxOf hjoin.mem]
  exact hjoin.least _ (getD_mem hd) ((holds_order_iff hdistinct hedges ha hd).mp had)
    ((holds_order_iff hdistinct hedges hb hd).mp hbd)

-- The body of the table is named first, so that the two outcomes of a cell can be stated without
-- it.
theorem joinTable_cases :
    (declaration.Passes .joins ∧ ∃ joins, joinTable declaration.names declaration.order = .ok joins ∧
        ∀ a b, a < declaration.names.length → b < declaration.names.length →
          ∃ c, leastUpperBound? declaration.order a b = some c ∧ joins.get? a b = some c) ∨
      ∃ e, declaration.Reports e .joins ∧
        joinTable declaration.names declaration.order = .error e := by
  obtain ⟨cell, htable, hsome, hnone⟩ : ∃ cell : Nat × Nat → Except Error Qualifier,
      joinTable declaration.names declaration.order = (do
        let cells ← (pairs declaration.names.length).mapM cell
        return ⟨declaration.names.length, cells.toArray⟩) ∧
      (∀ a b c, leastUpperBound? declaration.order a b = some c → cell (a, b) = .ok c) ∧
      ∀ a b, leastUpperBound? declaration.order a b = none →
        cell (a, b) = .error (.missingLeastUpperBound (declaration.names.getD a "")
          (declaration.names.getD b "")) :=
    ⟨_, rfl, fun a b c h => by simp only [h], fun a b h => by simp only [h]⟩
  rw [htable]
  rcases Except.mapM_cases cell (pairs declaration.names.length) with
    hall | ⟨⟨a, b⟩, hpair, e, he, herror⟩
  · have hfound : ∀ a b, a < declaration.names.length → b < declaration.names.length →
        ∃ c, leastUpperBound? declaration.order a b = some c := by
      intro a b ha hb
      obtain ⟨c, hc⟩ := hall (a, b) (mem_pairs.mpr ⟨ha, hb⟩)
      cases hlub : leastUpperBound? declaration.order a b with
      | none => cases hc.symm.trans (hnone a b hlub)
      | some c => exact ⟨c, rfl⟩
    have hok : (pairs declaration.names.length).mapM cell = .ok ((pairs declaration.names.length).map
        fun pair => (leastUpperBound? declaration.order pair.1 pair.2).getD 0) := by
      refine Except.mapM_of_forall fun pair hpair => ?_
      obtain ⟨ha, hb⟩ := mem_pairs.mp hpair
      obtain ⟨c, hc⟩ := hfound pair.1 pair.2 ha hb
      rw [hsome _ _ c hc, hc]
      rfl
    refine .inl ⟨fun a ha b hb => ?_, _, Except.bind_of_ok hok, fun a b ha hb => ?_⟩
    · have hia := List.idxOf_lt_length_of_mem ha
      have hib := List.idxOf_lt_length_of_mem hb
      obtain ⟨c, hc⟩ := hfound _ _ hia hib
      have hjoin := (leastUpperBound?_eq_some hdistinct hedges hia hib hc).2
      rw [getD_idxOf ha, getD_idxOf hb] at hjoin
      exact ⟨_, hjoin⟩
    · obtain ⟨c, hc⟩ := hfound a b ha hb
      refine ⟨c, hc, ?_⟩
      simp [Table.get?, getElem?_pairs ha hb, hc]
  · obtain ⟨ha, hb⟩ := mem_pairs.mp hpair
    cases hlub : leastUpperBound? declaration.order a b with
    | some c => cases he.symm.trans (hsome a b c hlub)
    | none =>
        have hjoin := leastUpperBound?_eq_none hdistinct hedges ha hb hlub
        cases he.symm.trans (hnone a b hlub)
        exact .inr ⟨_, .noJoin (getD_mem ha) (getD_mem hb) hjoin, Except.bind_of_error herror⟩

end Order

theorem viewTable_cases :
    ((∀ name ∈ declaration.viewNames, name ∈ declaration.names) ∧
        ∃ views, viewTable declaration.names declaration.views = .ok views) ∨
      ∃ name ∈ declaration.viewNames, name ∉ declaration.names ∧
        viewTable declaration.names declaration.views = .error (.unknownQualifier name) :=
  foldEntries_cases (fun table entry => setEntry_cases declaration.names table entry.1 entry.2.1
    entry.2.2) declaration.views _

theorem operationTables_cases (joins : Table Qualifier) :
    ((∀ name ∈ declaration.operationNames, name ∈ declaration.names) ∧
        ∃ operations, operationTables declaration.names joins declaration.operations =
          .ok operations) ∨
      ∃ name ∈ declaration.operationNames, name ∉ declaration.names ∧
        operationTables declaration.names joins declaration.operations =
          .error (.unknownQualifier name) := by
  refine foldEntries_cases (fun tables entry => ?_) declaration.operations []
  rcases setEntry_cases declaration.names ((tables.lookup entry.1).getD joins) entry.2.1
      entry.2.2.1 entry.2.2.2 with ⟨hnames, after, hset⟩ | ⟨name, hname, hunknown, hfail⟩
  · exact .inl ⟨hnames, _, Except.bind_of_ok hset⟩
  · exact .inr ⟨name, hname, hunknown, Except.bind_of_error hfail⟩

end Declaration

end Qualify.Lattice
