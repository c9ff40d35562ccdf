import Mathlib.Data.Nat.Choose.Basic
import Qualify.Proofs.Cnf.Explaining
import Qualify.Proofs.Text.Words

namespace Qualify

structure Dimacs where
  count : Nat
  announced : Nat
  clauses : List Clause
deriving DecidableEq, Repr

namespace Dimacs

structure Tally where
  wellFormedness : Nat
  constraint : Nat
  soft : Nat
deriving DecidableEq, Repr

def isComment (line : List Char) : Bool :=
  line.head? == some 'c'

-- Each zero ends a clause. `begun` is the part of the current clause already read, backwards.
def clausesFrom (begun : Clause) : List Int → Option (List Clause)
  | [] => if begun.isEmpty then some [] else none
  | l :: rest =>
      if l = 0 then (clausesFrom [] rest).map (begun.reverse :: ·)
      else clausesFrom (l :: begun) rest

-- Comments are left out, and line endings count no more than blanks.
def read (text : String) : Option Dimacs :=
  let content := (Text.lines text.toList).filter fun line => !isComment line
  match content.flatMap Text.words with
  | "p" :: "cnf" :: count :: announced :: literals => do
      let count ← Text.readDigits count.toList
      let announced ← Text.readDigits announced.toList
      let literals ← literals.mapM fun word => Text.readInt word.toList
      let clauses ← clausesFrom [] literals
      return { count, announced, clauses }
  | _ => none

def readTally (text : String) : Option Tally :=
  match ((Text.lines text.toList).find? isComment).map Text.words with
  | some ["c", wellFormedness, "well-formedness", "clauses,", constraint, "constraint", "clauses,",
      soft, "soft", "clauses"] => do
      let wellFormedness ← Text.readDigits wellFormedness.toList
      let constraint ← Text.readDigits constraint.toList
      let soft ← Text.readDigits soft.toList
      return { wellFormedness, constraint, soft }
  | _ => none

theorem clausesFrom_append {clause : Clause} (h : 0 ∉ clause) (begun : Clause) (rest : List Int) :
    clausesFrom begun (clause ++ 0 :: rest) =
      (clausesFrom [] rest).map ((begun.reverse ++ clause) :: ·) := by
  induction clause generalizing begun with
  | nil => rw [List.nil_append, clausesFrom, if_pos rfl, List.append_nil]
  | cons l clause ih =>
      rw [List.mem_cons, not_or] at h
      rw [List.cons_append, clausesFrom, if_neg (Ne.symm h.1), ih h.2, List.reverse_cons,
        List.append_assoc]
      rfl

-- Since no literal is zero, the zeros that end clauses cannot be mistaken.
theorem clausesFrom_flatMap {clauses : List Clause} (h : ∀ clause ∈ clauses, 0 ∉ clause) :
    clausesFrom [] (clauses.flatMap (· ++ [0])) = some clauses := by
  induction clauses with
  | nil => rfl
  | cons clause clauses ih =>
      obtain ⟨hclause, hclauses⟩ := List.forall_mem_cons.mp h
      rw [List.flatMap_cons, List.append_assoc, List.singleton_append,
        clausesFrom_append hclause, ih hclauses]
      rfl

theorem mapM_readInt (literals : List Int) :
    (literals.map toString).mapM (fun word => Text.readInt word.toList) = some literals := by
  induction literals with
  | nil => rfl
  | cons l literals ih =>
      rw [List.map_cons, List.mapM_cons, Text.readInt_toString, ih]
      rfl

def startsComment (row : List String) : Bool :=
  row.head?.bind (·.toList.head?) == some 'c'

theorem isComment_intercalate {row : List String} (h : ∀ word ∈ row, Text.IsWord word) :
    isComment (" ".intercalate row).toList = startsComment row := by
  rcases row with - | ⟨word, - | ⟨next, row⟩⟩
  · rfl
  · rw [String.intercalate_singleton]
    rfl
  · have hword := (h word List.mem_cons_self).toList_ne_nil
    rw [Text.toList_intercalate_cons, isComment, List.head?_append_of_ne_nil _ hword]
    rfl

theorem content_page {rows : List (List String)}
    (hwords : ∀ row ∈ rows, ∀ word ∈ row, Text.IsWord word) :
    ((Text.lines (Text.page rows).toList).filter fun line => !isComment line).flatMap Text.words =
      (rows.filter fun row => !startsComment row).flatten := by
  rw [Text.lines_page hwords, List.filter_map, List.flatMap_map]
  have hkept : rows.filter
      ((fun line => !isComment line) ∘ fun row => (" ".intercalate row).toList) =
      rows.filter fun row => !startsComment row := by
    refine List.filter_congr fun row hrow => ?_
    rw [Function.comp_apply, isComment_intercalate (hwords row hrow)]
  rw [hkept, ← List.flatMap_id]
  refine List.flatMap_congr fun row hrow => ?_
  exact Text.words_intercalate (hwords row (List.mem_of_mem_filter hrow))

theorem find?_page {row : List String} {rows : List (List String)}
    (hcomment : startsComment row = true)
    (hwords : ∀ other ∈ row :: rows, ∀ word ∈ other, Text.IsWord word) :
    ((Text.lines (Text.page (row :: rows)).toList).find? isComment).map Text.words = some row := by
  have hrow := hwords row List.mem_cons_self
  have hline : isComment (" ".intercalate row).toList = true := by
    rw [isComment_intercalate hrow, hcomment]
  rw [Text.lines_page hwords, List.map_cons, List.find?_cons_of_pos hline, Option.map_some,
    Text.words_intercalate hrow]

end Dimacs

theorem Clause.length_pairsOf {α : Type} (items : List α) :
    (pairsOf items).length = items.length * (items.length - 1) / 2 := by
  rw [← Nat.choose_two_right]
  induction items with
  | nil => rfl
  | cons a items ih =>
      rw [pairsOf, List.length_append, List.length_map, ih, List.length_cons, Nat.choose_succ_succ,
        Nat.choose_one_right]

theorem Clause.length_exactlyOne (literals : List Literal) :
    (exactlyOne literals).length = 1 + literals.length * (literals.length - 1) / 2 := by
  rw [exactlyOne, List.length_cons, atMostOne, List.length_map, length_pairsOf, Nat.add_comm]

-- One clause asks for a qualifier, and each pair of qualifiers is excluded by one more.
theorem Numbering.length_wellFormedness (numbering : Numbering) (lattice : Lattice) (id : SlotId) :
    (numbering.wellFormedness lattice id).length =
      1 + lattice.size * (lattice.size - 1) / 2 := by
  rw [wellFormedness, Clause.length_exactlyOne, List.length_map, Lattice.qualifiers,
    List.length_range]

namespace Cnf

def clauseRow (clause : Clause) : List String :=
  (clause ++ [0]).map toString

def tallyRow (cnf : Cnf) : List String :=
  ["c", toString cnf.wellFormednessClauses, "well-formedness", "clauses,",
    toString cnf.constraintClauses, "constraint", "clauses,", toString cnf.soft.length, "soft",
    "clauses"]

def softRow (entry : Clause × Nat) : List String :=
  "c" :: "soft" :: toString entry.2 :: clauseRow entry.1

def headerRow (cnf : Cnf) : List String :=
  ["p", "cnf", toString cnf.count, toString cnf.hard.length]

def rows (cnf : Cnf) : List (List String) :=
  cnf.tallyRow :: (cnf.soft.map softRow ++
    cnf.headerRow :: cnf.hard.map fun entry => clauseRow entry.1)

theorem intercalate_tallyRow (cnf : Cnf) :
    " ".intercalate cnf.tallyRow = s!"c {cnf.wellFormednessClauses} well-formedness clauses, {cnf.constraintClauses} constraint clauses, {cnf.soft.length} soft clauses" := by
  have hlead : toString "c " = "c" ++ " " := by decide
  have hfirst : toString " well-formedness clauses, " =
      " " ++ ("well-formedness" ++ (" " ++ ("clauses," ++ " "))) := by decide
  have hsecond : toString " constraint clauses, " =
      " " ++ ("constraint" ++ (" " ++ ("clauses," ++ " "))) := by decide
  have hthird : toString " soft clauses" = " " ++ ("soft" ++ (" " ++ "clauses")) := by decide
  simp only [tallyRow, hlead, hfirst, hsecond, hthird, String.intercalate_cons_cons,
    String.intercalate_singleton, String.append_assoc]

theorem intercalate_softRow (entry : Clause × Nat) :
    " ".intercalate (softRow entry) = s!"c soft {entry.2} {clauseLine entry.1}" := by
  have hlead : toString "c soft " = "c" ++ (" " ++ ("soft" ++ " ")) := by decide
  have hrow : clauseRow entry.1 ≠ [] := by simp [clauseRow]
  simp only [softRow, hlead, String.intercalate_cons_cons, String.intercalate_cons_of_ne_nil hrow,
    String.append_assoc]
  rfl

theorem intercalate_headerRow (cnf : Cnf) :
    " ".intercalate cnf.headerRow = s!"p cnf {cnf.count} {cnf.hard.length}" := by
  have hlead : toString "p cnf " = "p" ++ (" " ++ ("cnf" ++ " ")) := by decide
  simp only [headerRow, hlead, String.intercalate_cons_cons, String.intercalate_singleton,
    String.append_assoc]
  rfl

theorem dimacs_eq (cnf : Cnf) : cnf.dimacs = Text.page cnf.rows := by
  have hsoft : (cnf.soft.map softRow).map " ".intercalate =
      cnf.soft.map fun entry => s!"c soft {entry.2} {clauseLine entry.1}" := by
    rw [List.map_map]
    exact List.map_congr_left fun entry _ => intercalate_softRow entry
  have hhard : (cnf.hard.map fun entry => clauseRow entry.1).map " ".intercalate =
      cnf.hard.map fun entry => clauseLine entry.1 := by
    rw [List.map_map]
    rfl
  simp only [Text.page, rows, List.map_cons, List.map_append, intercalate_tallyRow, hsoft,
    intercalate_headerRow, hhard]
  rw [dimacs, List.map_cons, List.map_append, List.map_cons]

theorem isWord_clauseRow (clause : Clause) : ∀ word ∈ clauseRow clause, Text.IsWord word :=
  List.forall_mem_map.mpr fun l _ => Text.isWord_toString_int l

theorem isWord_rows (cnf : Cnf) : ∀ row ∈ cnf.rows, ∀ word ∈ row, Text.IsWord word := by
  have hnumber := Text.isWord_toString_nat
  have htally : ∀ word ∈ cnf.tallyRow, Text.IsWord word := by
    simp only [tallyRow, List.forall_mem_cons, hnumber, true_and]
    decide
  have hsoft : ∀ entry ∈ cnf.soft, ∀ word ∈ softRow entry, Text.IsWord word := by
    intro entry _
    simp only [softRow, List.forall_mem_cons, hnumber, true_and]
    exact ⟨by decide, by decide, isWord_clauseRow entry.1⟩
  have hheader : ∀ word ∈ cnf.headerRow, Text.IsWord word := by
    simp only [headerRow, List.forall_mem_cons, hnumber, true_and]
    decide
  rw [rows, List.forall_mem_cons, List.forall_mem_append, List.forall_mem_cons]
  exact ⟨htally, List.forall_mem_map.mpr hsoft, hheader,
    List.forall_mem_map.mpr fun entry _ => isWord_clauseRow entry.1⟩

-- The literals of a clause do not look like a comment.
theorem startsComment_clauseRow (clause : Clause) :
    Dimacs.startsComment (clauseRow clause) = false := by
  obtain ⟨l, rest, hrow⟩ := List.exists_cons_of_ne_nil (l := clause ++ [0]) (by simp)
  rw [clauseRow, hrow, List.map_cons]
  refine beq_eq_false_iff_ne.mpr fun hhead => ?_
  rcases Text.isDigit_of_mem_toString (List.mem_of_head? hhead) with hdigit | hminus
  · cases hdigit
  · cases hminus

-- Soft clauses and the tally are written as comments, and no clause row starts like one.
theorem filter_rows (cnf : Cnf) :
    (cnf.rows.filter fun row => !Dimacs.startsComment row).flatten =
      "p" :: "cnf" :: toString cnf.count :: toString cnf.hard.length ::
        ((cnf.hard.map (·.1)).flatMap (· ++ [0])).map toString := by
  have hsoft : (cnf.soft.map softRow).filter (fun row => !Dimacs.startsComment row) = [] := by
    refine List.filter_eq_nil_iff.mpr (List.forall_mem_map.mpr fun entry _ => ?_)
    simp [softRow, Dimacs.startsComment]
  have hhard : (cnf.hard.map fun entry => clauseRow entry.1).filter
      (fun row => !Dimacs.startsComment row) = cnf.hard.map fun entry => clauseRow entry.1 := by
    refine List.filter_eq_self.mpr (List.forall_mem_map.mpr fun entry _ => ?_)
    rw [startsComment_clauseRow]
    rfl
  have htally : Dimacs.startsComment cnf.tallyRow = true := rfl
  have hheader : Dimacs.startsComment cnf.headerRow = false := rfl
  rw [rows, List.filter_cons_of_neg (by simp [htally]), List.filter_append, hsoft,
    List.nil_append, List.filter_cons_of_pos (by simp [hheader]), hhard, List.flatten_cons,
    List.flatMap_map, List.map_flatMap, List.flatMap_def]
  rfl

theorem read_dimacs {cnf : Cnf} (h : ∀ clause ∈ cnf.hard.map (·.1), 0 ∉ clause) :
    Dimacs.read cnf.dimacs =
      some ⟨cnf.count, (cnf.hard.map (·.1)).length, cnf.hard.map (·.1)⟩ := by
  rw [dimacs_eq, Dimacs.read]
  simp only [Dimacs.content_page cnf.isWord_rows, filter_rows, Text.readDigits_toString,
    Dimacs.mapM_readInt, Option.bind_eq_bind, Option.bind_some, Dimacs.clausesFrom_flatMap h,
    List.length_map]
  rfl

theorem readTally_dimacs (cnf : Cnf) :
    Dimacs.readTally cnf.dimacs =
      some ⟨cnf.wellFormednessClauses, cnf.constraintClauses, cnf.soft.length⟩ := by
  have hcomment : Dimacs.startsComment cnf.tallyRow = true := rfl
  rw [dimacs_eq, Dimacs.readTally, rows, Dimacs.find?_page hcomment cnf.isWord_rows]
  simp only [tallyRow, Text.readDigits_toString]
  rfl

theorem constraintClauses_le (cnf : Cnf) : cnf.constraintClauses ≤ cnf.hard.length :=
  List.length_filter_le _ _

theorem wellFormednessClauses_add (cnf : Cnf) :
    cnf.wellFormednessClauses + cnf.constraintClauses = cnf.hard.length :=
  Nat.sub_add_cancel cnf.constraintClauses_le

theorem wellFormednessClauses_encoding (registry : Registry) (constraints : List Constraint) :
    (encoding registry constraints).wellFormednessClauses =
      registry.variableSlots.length *
        (1 + registry.lattice.size * (registry.lattice.size - 1) / 2) := by
  have hconstraint : (encoding registry constraints).constraintClauses =
      (traced registry (numberingOf registry constraints) 0 constraints).length :=
    congrArg List.length (filter_encoding registry constraints)
  have hslots : (registry.variableSlots.flatMap fun id =>
      (numberingOf registry constraints).wellFormedness registry.lattice id).length =
      registry.variableSlots.length *
        (1 + registry.lattice.size * (registry.lattice.size - 1) / 2) := by
    simp only [List.length_flatMap, Numbering.length_wellFormedness, List.map_const',
      List.sum_replicate_nat]
  rw [wellFormednessClauses, hconstraint, ← hslots, encoding, List.length_append, List.length_map,
    Nat.add_sub_cancel_left]

-- A file in DIMACS format gives back what was encoded. No literal is zero, so that zeros end
-- clauses and nothing else, and the two ways of counting clauses agree.
theorem encode_dimacs {registry : Registry} (hreachable : registry.Reachable)
    {constraints : List Constraint}
    (hcount : registry.slots.size * registry.lattice.size +
      (Constraint.potentialsOfAll constraints).dedup.length < 0x80000000) :
    ((∀ c ∈ constraints, Constraint.Built registry c) →
      ((∃ cnf, encode registry constraints = .ok cnf) ↔ HasRoom registry constraints)) ∧
    ∀ cnf, encode registry constraints = .ok cnf →
      ∃ file tally, Dimacs.read cnf.dimacs = some file ∧ Dimacs.readTally cnf.dimacs = some tally ∧
        file.count = cnf.count ∧ file.clauses = cnf.hard.map (·.1) ∧
        file.announced = file.clauses.length ∧
        file.announced = tally.wellFormedness + tally.constraint ∧
        tally.wellFormedness = registry.variableSlots.length *
          (1 + registry.lattice.size * (registry.lattice.size - 1) / 2) ∧
        tally.soft = cnf.soft.length := by
  have hwf := hreachable.wellFormed
  have hfits := numberingOf_fits hcount
  refine ⟨fun hbuilt => encode_isOk_iff hwf (fun c hc => (hbuilt c hc).succeeds) hfits,
    fun cnf hencode => ?_⟩
  obtain ⟨hencodable, rfl⟩ := encodable_of_encode hencode
  have hwithin := (encoding_represents hwf hencodable hfits).within
  refine ⟨_, _, read_dimacs fun clause hclause hzero => ?_, readTally_dimacs _, rfl, rfl, rfl, ?_,
    wellFormednessClauses_encoding registry constraints, rfl⟩
  · exact Literal.ne_zero_of_isWithin (hwithin clause hclause 0 hzero) rfl
  · rw [wellFormednessClauses_add, List.length_map]

section Sample

open Registry

-- The clause of the last constraint is empty, so that its line is a zero alone.
def impossibleFlow : List Constraint :=
  taintFlow ++ [.alwaysFalse]

theorem impossibleFlow_encode_dimacs :
    (∀ c ∈ impossibleFlow, Constraint.Built taint c) ∧
      ∃ cnf file tally, encode taint impossibleFlow = .ok cnf ∧
        Dimacs.read cnf.dimacs = some file ∧ Dimacs.readTally cnf.dimacs = some tally ∧
        file.count = 9 ∧
        file.clauses = [[-5, -8], [8, -9], [7, 9], [], [5, 6], [-5, -6], [7, 8], [-7, -8]] ∧
        file.announced = 8 ∧ tally.wellFormedness = 4 ∧ tally.constraint = 4 := by
  have hbuilt : ∀ c ∈ impossibleFlow, Constraint.Built taint c :=
    List.forall_mem_append.mpr ⟨taintFlow_built, List.forall_mem_singleton.mpr .alwaysFalse⟩
  have hcount : taint.slots.size * taint.lattice.size +
      (Constraint.potentialsOfAll impossibleFlow).dedup.length < 0x80000000 := by decide
  obtain ⟨hencode, hread⟩ := encode_dimacs taint_reachable hcount
  obtain ⟨cnf, hcnf⟩ := (hencode hbuilt).mpr (by decide)
  obtain ⟨file, tally, hfile, htally, hvariables, hclauses, hannounced, hsum, hwellFormedness, -⟩ :=
    hread cnf hcnf
  obtain ⟨-, rfl⟩ := encodable_of_encode hcnf
  have hclauses := hclauses.trans (by decide : _ =
    ([[-5, -8], [8, -9], [7, 9], [], [5, 6], [-5, -6], [7, 8], [-7, -8]] : List Clause))
  have hfour : tally.wellFormedness = 4 := hwellFormedness.trans (by decide)
  have height : file.announced = 8 := by rw [hannounced, hclauses]; rfl
  refine ⟨hbuilt, _, file, tally, hcnf, hfile, htally, hvariables.trans (by decide), hclauses,
    height, hfour, ?_⟩
  omega

end Sample

end Cnf

end Qualify
