import Mathlib.Data.List.Forall2
import Qualify.Proofs.Term.Reading
import Qualify.Script.Basic

namespace Qualify

namespace Sexp

-- A body of an assertion can have a name, as in `(! BODY :named NAME)`.
def unannotated : Sexp → Sexp
  | list (atom head :: body :: rest) =>
      if head = "!" then body else list (atom head :: body :: rest)
  | sexp => sexp

def declared? : Sexp → Option (String × String)
  | list [atom head, atom symbol, atom sort] =>
      if head = "declare-const" then some (symbol, sort) else none
  | _ => none

theorem declared?_of_length {members : List Sexp} (h : members.length ≠ 3) :
    (list members).declared? = none := by
  unfold declared?
  split
  · rename_i heq
    cases heq
    exact absurd rfl h
  · rfl

def asserted? : Sexp → Option Sexp
  | list [atom head, body] => if head = "assert" then some body.unannotated else none
  | _ => none

def named? : Sexp → Option (String × Sexp)
  | list [atom head, list [atom mark, body, atom keyword, atom name]] =>
      if head = "assert" ∧ mark = "!" ∧ keyword = ":named" then some (name, body) else none
  | _ => none

def weighted? : Sexp → Option (Sexp × Nat)
  | list [atom head, body, atom keyword, atom weight] =>
      if head = "assert-soft" ∧ keyword = ":weight" then
        (Text.readDigits weight.toList).map fun n => (body, n)
      else none
  | _ => none

def preferred? : Sexp → Option Sexp
  | list (atom head :: body :: _) => if head = "assert-soft" then some body else none
  | _ => none

end Sexp

theorem Term.unannotated_sexp (term : Term) : term.sexp.unannotated = term.sexp := by
  cases term with
  | and terms => cases terms <;> simp [sexp, sexpOfAll, Sexp.unannotated]
  | or terms => cases terms <;> simp [sexp, sexpOfAll, Sexp.unannotated]
  | _ => simp [sexp, Sexp.unannotated]

namespace Token

theorem Layout.keyword {word : String} (h : isPlain (.atom word) = true) :
    Layout (Sexp.list [.atom word]).tokens ('(' :: (word.toList ++ [')'])) :=
  .opening ((Layout.word h).append (.closing .nil) (by simp [Ends, isDelimiter]))

-- The end of a line is a blank like others.
theorem layout_lines {lines : List String} {sexps : List Sexp}
    (h : List.Forall₂ (fun line sexp => Layout sexp.tokens line.toList) lines sexps) :
    Layout (Sexp.tokensOfAll sexps) (lines.flatMap fun line => line.toList ++ ['\n']) := by
  induction h with
  | nil => exact .nil
  | cons hline _ ih =>
      rw [Sexp.tokensOfAll, List.flatMap_cons, List.append_assoc]
      exact hline.append (.blank rfl ih) (by simp [Ends, isDelimiter]; decide)

end Token

namespace Script

def declaration (symbol sort : String) : Sexp :=
  .list [.atom "declare-const", .atom symbol, .atom sort]

def assertion (mode : ScriptMode) (a : Assertion) : Sexp :=
  .list [.atom "assert",
    if mode = .explain then .list [.atom "!", a.term.sexp, .atom ":named", .atom a.name]
    else a.term.sexp]

def softAssertion (soft : Term × Nat) : Sexp :=
  .list [.atom "assert-soft", soft.1.sexp, .atom ":weight", .atom (toString soft.2)]

def declarations (slots potentials : List SlotId) : List Sexp :=
  slots.map (fun id => declaration (Term.slotSymbol id) "Int") ++
    potentials.map (fun id => declaration (Term.existsSymbol id) "Bool")

def options (mode : ScriptMode) : List Sexp :=
  if mode = .explain then
    [.list [.atom "set-option", .atom ":produce-unsat-cores", .atom "true"]]
  else []

def queries (mode : ScriptMode) : List Sexp :=
  [.list [.atom "check-sat"],
    .list [.atom (if mode = .explain then "get-unsat-core" else "get-model")]]

def commands (mode : ScriptMode) (slots potentials : List SlotId) (hard : List Assertion)
    (soft : List (Term × Nat)) : List Sexp :=
  options mode ++ declarations slots potentials ++ hard.map (assertion mode) ++
    soft.map softAssertion ++ queries mode

def comment (slots : List SlotId) (count : Nat) : String :=
  "; " ++ toString slots.length ++ " variable slots, " ++ toString count ++ " constraints"

def read (text : String) : Option (List Sexp) :=
  Sexp.readAll (text.toList.dropWhile (· ≠ '\n'))

section Layout

open Token

theorem layout_declaration {symbol sort : String} (hsymbol : isPlain (.atom symbol) = true)
    (hsort : isPlain (.atom sort) = true) :
    Layout (declaration symbol sort).tokens
      ("(declare-const " ++ symbol ++ " " ++ sort ++ ")").toList := by
  have hgroup := Layout.group (by decide : isPlain (.atom "declare-const") = true)
    (@Layout.cons (.atom _) [.atom _] _ _ (.word hsymbol) (.word hsort))
  simpa [declaration] using hgroup

theorem layout_assertion (mode : ScriptMode) {a : Assertion}
    (hname : isPlain (.atom a.name) = true) :
    Layout (assertion mode a).tokens (assertionLine mode a).toList := by
  have hterm := a.term.layout_text
  by_cases hmode : mode = .explain
  · have hnamed := hterm.cons (@Layout.cons (.atom ":named") [.atom _] _ _ (.word (by decide))
      (.word hname))
    have hgroup := Layout.group (by decide : isPlain (.atom "assert") = true)
      (Layout.group (by decide : isPlain (.atom "!") = true) hnamed).single
    simpa [assertion, assertionLine, hmode, ToString.toString] using hgroup
  · have hgroup := Layout.group (by decide : isPlain (.atom "assert") = true) hterm.single
    simpa [assertion, assertionLine, hmode, ToString.toString] using hgroup

theorem layout_softAssertion (soft : Term × Nat) :
    Layout (softAssertion soft).tokens (softLine soft).toList := by
  have hgroup := Layout.group (by decide : isPlain (.atom "assert-soft") = true)
    (soft.1.layout_text.cons (@Layout.cons (.atom ":weight") [.atom _] _ _ (.word (by decide))
      (.word (Term.isPlain_toString soft.2))))
  have hline : softLine soft =
      "(assert-soft " ++ soft.1.text ++ " :weight " ++ toString soft.2 ++ ")" := rfl
  rw [hline]
  simpa [softAssertion] using hgroup

theorem layout_options (mode : ScriptMode) :
    List.Forall₂ (fun line sexp => Layout sexp.tokens line.toList)
      (if mode = .explain then ["(set-option :produce-unsat-cores true)"] else [])
      (options mode) := by
  have hgroup := Layout.group (by decide : isPlain (.atom "set-option") = true)
    (@Layout.cons (.atom ":produce-unsat-cores") [.atom "true"] _ _ (.word (by decide))
      (.word (by decide)))
  cases mode with
  | explain => exact .cons hgroup .nil
  | satisfy => exact .nil
  | optimize => exact .nil

theorem layout_queries (mode : ScriptMode) :
    List.Forall₂ (fun line sexp => Layout sexp.tokens line.toList)
      ["(check-sat)", if mode = .explain then "(get-unsat-core)" else "(get-model)"]
      (queries mode) := by
  have hmodel : isPlain (.atom "get-model") = true := by decide
  refine .cons (.keyword (by decide)) (.cons ?_ .nil)
  cases mode with
  | explain => exact .keyword (by decide)
  | satisfy => exact .keyword hmodel
  | optimize => exact .keyword hmodel

theorem forall₂_map {α : Type} {line : α → String} {sexp : α → Sexp} {entries : List α}
    (h : ∀ entry ∈ entries, Layout (sexp entry).tokens (line entry).toList) :
    List.Forall₂ (fun line sexp => Layout sexp.tokens line.toList) (entries.map line)
      (entries.map sexp) := by
  rw [List.forall₂_map_left_iff, List.forall₂_map_right_iff]
  exact List.forall₂_same.mpr h

theorem toList_lines (first : String) (rest : List String) :
    (String.join ((first :: rest).map (· ++ "\n"))).toList =
      first.toList ++ '\n' :: rest.flatMap fun line => line.toList ++ ['\n'] := by
  simp [String.toList_join, List.flatMap_map]

theorem dropWhile_comment (slots : List SlotId) (count : Nat) (text : List Char) :
    ((comment slots count).toList ++ '\n' :: text).dropWhile (· ≠ '\n') = '\n' :: text := by
  have hnumber : ∀ n : Nat, ∀ c ∈ (toString n).toList, c ≠ '\n' := by
    rintro n c hc rfl
    rw [Text.toList_toString] at hc
    cases List.all_eq_true.mp (Text.isNumeral_toDigits n).2 '\n' hc
  have hword : ∀ word : String, word.toList.all (· ≠ '\n') = true →
      ∀ c ∈ word.toList, c ≠ '\n' :=
    fun word h c hc => of_decide_eq_true (List.all_eq_true.mp h c hc)
  have hwords : ∀ c ∈ (comment slots count).toList, c ≠ '\n' := by
    simp only [comment, String.toList_append, List.forall_mem_append]
    exact ⟨⟨⟨⟨hword "; " (by decide), hnumber _⟩, hword " variable slots, " (by decide)⟩,
      hnumber _⟩, hword " constraints" (by decide)⟩
  rw [List.dropWhile_append_of_pos fun c hc => decide_eq_true (hwords c hc)]
  exact List.dropWhile_cons_of_neg (by simp)

-- What a solver reads in the text of a script.
theorem read_lines (mode : ScriptMode) (count : Nat) (slots potentials : List SlotId)
    {hard : List Assertion} (hnames : ∀ a ∈ hard, isPlain (.atom a.name) = true)
    (soft : List (Term × Nat)) :
    read (String.join ((lines mode count slots potentials hard soft).map (· ++ "\n"))) =
      some (commands mode slots potentials hard soft) := by
  have hslots : ∀ id ∈ slots, Layout (declaration (Term.slotSymbol id) "Int").tokens
      s!"(declare-const {Term.slotSymbol id} Int)".toList := by
    intro id _
    simpa [ToString.toString] using
      layout_declaration (Term.isPlain_slotSymbol id) (by decide : isPlain (.atom "Int") = true)
  have hpotentials : ∀ id ∈ potentials, Layout (declaration (Term.existsSymbol id) "Bool").tokens
      s!"(declare-const {Term.existsSymbol id} Bool)".toList := by
    intro id _
    simpa [ToString.toString] using
      layout_declaration (Term.isPlain_existsSymbol id) (by decide : isPlain (.atom "Bool") = true)
  have hhard : ∀ a ∈ hard, Layout (assertion mode a).tokens (assertionLine mode a).toList :=
    fun a ha => layout_assertion mode (hnames a ha)
  have hsoft : ∀ entry ∈ soft, Layout (softAssertion entry).tokens (softLine entry).toList :=
    fun entry _ => layout_softAssertion entry
  have hdeclared := List.rel_append (List.rel_append (layout_options mode) (forall₂_map hslots))
    (forall₂_map hpotentials)
  have hlines := List.rel_append (List.rel_append (List.rel_append hdeclared (forall₂_map hhard))
    (forall₂_map hsoft)) (layout_queries mode)
  have htext : (String.join ((lines mode count slots potentials hard soft).map (· ++ "\n"))).toList =
      (comment slots count).toList ++ '\n' :: _ := toList_lines _ _
  rw [read, htext, dropWhile_comment, commands, declarations, ← List.append_assoc (options mode)]
  exact Sexp.readAll_layout (.blank rfl (layout_lines hlines))

end Layout

section Parts

variable (mode : ScriptMode) (slots potentials : List SlotId) (hard : List Assertion)
  (soft : List (Term × Nat))

theorem asserted?_assertion (a : Assertion) : (assertion mode a).asserted? = some a.term.sexp := by
  by_cases hmode : mode = .explain
  · simp [assertion, Sexp.asserted?, Sexp.unannotated, hmode]
  · simp [assertion, Sexp.asserted?, hmode, a.term.unannotated_sexp]

theorem declared?_declarations :
    (declarations slots potentials).filterMap Sexp.declared? =
      slots.map (fun id => (Term.slotSymbol id, "Int")) ++
        potentials.map (fun id => (Term.existsSymbol id, "Bool")) := by
  simp [declarations, declaration, List.filterMap_map, Function.comp_def, Sexp.declared?]

-- Nothing else declares a symbol.
theorem declared?_commands :
    (commands mode slots potentials hard soft).filterMap Sexp.declared? =
      (declarations slots potentials).filterMap Sexp.declared? := by
  have hoptions : (options mode).filterMap Sexp.declared? = [] := by cases mode <;> decide
  have hqueries : (queries mode).filterMap Sexp.declared? = [] := by cases mode <;> decide
  have hassertion : ∀ a, (assertion mode a).declared? = none :=
    fun _ => Sexp.declared?_of_length (by simp)
  have hsoft : ∀ entry, (softAssertion entry).declared? = none :=
    fun _ => Sexp.declared?_of_length (by simp)
  simp [commands, hoptions, hqueries, List.filterMap_map, hassertion, hsoft]

theorem asserted?_commands :
    (commands mode slots potentials hard soft).filterMap Sexp.asserted? =
      hard.map fun a => a.term.sexp := by
  have hoptions : (options mode).filterMap Sexp.asserted? = [] := by cases mode <;> rfl
  have hqueries : (queries mode).filterMap Sexp.asserted? = [] := by cases mode <;> rfl
  have hdeclaration : ∀ symbol sort, (declaration symbol sort).asserted? = none := fun _ _ => rfl
  have hsoft : ∀ entry, (softAssertion entry).asserted? = none := fun _ => rfl
  simp [commands, hoptions, hqueries, List.filterMap_map, declarations, hdeclaration,
    asserted?_assertion, hsoft]

theorem preferred?_commands :
    (commands mode slots potentials hard soft).filterMap Sexp.preferred? =
      soft.map fun entry => entry.1.sexp := by
  have hoptions : (options mode).filterMap Sexp.preferred? = [] := by cases mode <;> rfl
  have hqueries : (queries mode).filterMap Sexp.preferred? = [] := by cases mode <;> rfl
  have hdeclaration : ∀ symbol sort, (declaration symbol sort).preferred? = none := fun _ _ => rfl
  have hassertion : ∀ a, (assertion mode a).preferred? = none := fun _ => rfl
  have hsoft : ∀ entry, (softAssertion entry).preferred? = some entry.1.sexp := fun _ => rfl
  simp [commands, hoptions, hqueries, List.filterMap_map, declarations, hdeclaration, hassertion,
    hsoft]

theorem named?_commands :
    (commands .explain slots potentials hard soft).filterMap Sexp.named? =
      hard.map fun a => (a.name, a.term.sexp) := by
  have hoptions : (options .explain).filterMap Sexp.named? = [] := rfl
  have hqueries : (queries .explain).filterMap Sexp.named? = [] := rfl
  have hdeclaration : ∀ symbol sort, (declaration symbol sort).named? = none := fun _ _ => rfl
  have hassertion : ∀ a, (assertion .explain a).named? = some (a.name, a.term.sexp) := fun _ => rfl
  have hsoft : ∀ entry, (softAssertion entry).named? = none := by
    simp [softAssertion, Sexp.named?]
  simp [commands, hoptions, hqueries, List.filterMap_map, declarations, hdeclaration, hassertion,
    hsoft]

theorem weighted?_commands :
    (commands mode slots potentials hard soft).filterMap Sexp.weighted? =
      soft.map fun entry => (entry.1.sexp, entry.2) := by
  have hoptions : (options mode).filterMap Sexp.weighted? = [] := by cases mode <;> rfl
  have hqueries : (queries mode).filterMap Sexp.weighted? = [] := by cases mode <;> rfl
  have hdeclaration : ∀ symbol sort, (declaration symbol sort).weighted? = none := fun _ _ => rfl
  have hassertion : ∀ a, (assertion mode a).weighted? = none := fun _ => rfl
  have hsoft : ∀ entry, (softAssertion entry).weighted? = some (entry.1.sexp, entry.2) := by
    intro entry
    rw [softAssertion, Sexp.weighted?, if_pos ⟨rfl, rfl⟩, Term.readDigits_toString]
    rfl
  simp [commands, hoptions, hqueries, List.filterMap_map, declarations, hdeclaration, hassertion,
    hsoft]

end Parts

def hardTerms (text : String) : Option (List Term) := do
  let commands ← read text
  (commands.filterMap Sexp.asserted?).mapM Term.ofSexp

def softTerms (text : String) : Option (List (Term × Nat)) := do
  let commands ← read text
  (commands.filterMap Sexp.weighted?).mapM fun (body, weight) =>
    (Term.ofSexp body).map fun term => (term, weight)

section Terms

variable (mode : ScriptMode) (count : Nat) (slots potentials : List SlotId)
  {hard : List Assertion} (hnames : ∀ a ∈ hard, Token.isPlain (.atom a.name) = true)
  (soft : List (Term × Nat))
include hnames

theorem hardTerms_lines :
    hardTerms (String.join ((lines mode count slots potentials hard soft).map (· ++ "\n"))) =
      some (hard.map (·.term)) := by
  have hread : ∀ assertions : List Assertion,
      (assertions.map fun a => a.term.sexp).mapM Term.ofSexp = some (assertions.map (·.term)) := by
    intro assertions
    induction assertions with
    | nil => rfl
    | cons a rest ih => simp [Term.ofSexp_sexp, ih]
  rw [hardTerms, read_lines mode count slots potentials hnames soft]
  exact (congrArg _ (asserted?_commands mode slots potentials hard soft)).trans (hread hard)

theorem softTerms_lines :
    softTerms (String.join ((lines mode count slots potentials hard soft).map (· ++ "\n"))) =
      some soft := by
  have hread : ∀ entries : List (Term × Nat),
      (entries.map fun entry => (entry.1.sexp, entry.2)).mapM (fun (body, weight) =>
        (Term.ofSexp body).map fun term => (term, weight)) = some entries := by
    intro entries
    induction entries with
    | nil => rfl
    | cons entry rest ih => simp [Term.ofSexp_sexp, ih]
  rw [softTerms, read_lines mode count slots potentials hnames soft]
  exact (congrArg _ (weighted?_commands mode slots potentials hard soft)).trans (hread soft)

end Terms

end Script

end Qualify
