import Mathlib.Data.List.TakeWhile
import Qualify.Text.Blank

namespace Qualify.Text

theorem isBlank_of_isDigit {c : Char} (h : c.isDigit = true) : isBlank c = false := by
  simp only [Char.isDigit, Bool.and_eq_true, decide_eq_true_eq, ge_iff_le,
    UInt32.le_iff_toNat_le] at h
  obtain ⟨hlow, hhigh⟩ := h
  have hlow : 48 ≤ c.toNat := hlow
  have hhigh : c.toNat ≤ 57 := hhigh
  simp only [isBlank, Bool.or_eq_false_iff, Bool.and_eq_false_iff, decide_eq_false_iff_not,
    beq_eq_false_iff_ne]
  omega

def AllBlank (text : List Char) : Prop :=
  ∀ c ∈ text, isBlank c = true

theorem AllBlank.append {text other : List Char} (h : AllBlank text) (hother : AllBlank other) :
    AllBlank (text ++ other) :=
  List.forall_mem_append.mpr ⟨h, hother⟩

theorem AllBlank.reverse {text : List Char} (h : AllBlank text) : AllBlank text.reverse :=
  fun c hc => h c (List.mem_reverse.mp hc)

theorem AllBlank.dropReturn {line : List Char} (h : AllBlank line) :
    AllBlank (Text.dropReturn line) := by
  unfold Text.dropReturn
  split
  · exact fun c hc => h c (List.mem_cons_of_mem _ hc)
  · exact h

theorem trim_blank {text : List Char} (h : AllBlank text) : trim text = [] := by
  have hnil : text.dropWhile isBlank = [] := List.dropWhile_eq_nil_iff.mpr h
  rw [trim, trimStart, hnil]
  rfl

-- Blanks around a word are cut off.
theorem trim_padded {lead word trail : List Char} (hlead : AllBlank lead) (htrail : AllBlank trail)
    (hword : ∀ c ∈ word, isBlank c = false) : trim (lead ++ word ++ trail) = word := by
  cases word with
  | nil =>
      rw [List.append_nil]
      exact trim_blank (hlead.append htrail)
  | cons c word =>
      have hstart : trimStart (lead ++ c :: word ++ trail) = c :: word ++ trail := by
        rw [trimStart, List.append_assoc, List.dropWhile_append_of_pos hlead, List.cons_append,
          List.dropWhile_cons_of_neg (by simp [hword c List.mem_cons_self])]
      have hkept : (c :: word).reverse.dropWhile isBlank = (c :: word).reverse := by
        refine List.dropWhile_eq_self_iff.mpr fun hlt => ?_
        rw [hword _ (List.mem_reverse.mp (List.getElem_mem hlt))]
        exact Bool.false_ne_true
      rw [trim, hstart, trimEnd, List.reverse_append,
        List.dropWhile_append_of_pos htrail.reverse, hkept, List.reverse_reverse]

theorem linesFrom_append {line text : List Char} (h : '\n' ∉ text) (rest : List Char) :
    linesFrom line (text ++ rest) = linesFrom (text.reverse ++ line) rest := by
  induction text generalizing line with
  | nil => rfl
  | cons c text ih =>
      have hc : c ≠ '\n' := fun heq => h (heq ▸ List.mem_cons_self)
      rw [List.cons_append, linesFrom.eq_3 _ _ _ (by simpa using hc),
        ih fun hmem => h (List.mem_cons_of_mem c hmem), List.reverse_cons, List.append_assoc]
      rfl

-- Lines that are written one after the other are read back.
theorem lines_join {texts : List String}
    (h : ∀ text ∈ texts, '\n' ∉ text.toList ∧ '\r' ∉ text.toList) :
    lines (String.join (texts.map (· ++ "\n"))).toList = texts.map String.toList := by
  induction texts with
  | nil => rfl
  | cons text texts ih =>
      obtain ⟨⟨hfeed, hreturn⟩, hrest⟩ := List.forall_mem_cons.mp h
      have hkept : dropReturn text.toList.reverse = text.toList.reverse := by
        refine dropReturn.eq_2 _ fun line heq => hreturn (List.mem_reverse.mp ?_)
        rw [heq]
        exact List.mem_cons_self
      have hjoin : (String.join ((text :: texts).map (· ++ "\n"))).toList =
          text.toList ++ '\n' :: (String.join (texts.map (· ++ "\n"))).toList := by
        simp [String.toList_join]
      rw [hjoin, lines, linesFrom_append hfeed, List.append_nil, linesFrom, hkept,
        List.reverse_reverse, List.map_cons, ← ih hrest]
      rfl

section Status

-- Only a return right at the end can go with the line ending.
theorem dropReturn_append {text rest : List Char} (h : AllBlank text)
    (hrest : rest.head? ≠ some '\r') :
    ∃ kept, AllBlank kept ∧ dropReturn (text ++ rest) = kept ++ rest := by
  cases text with
  | nil => exact ⟨[], h, dropReturn.eq_2 _ fun line heq => hrest (congrArg List.head? heq)⟩
  | cons c text =>
      by_cases hc : c = '\r'
      · subst hc
        exact ⟨text, h.dropReturn, rfl⟩
      · exact ⟨c :: text, h, dropReturn.eq_2 _ fun line heq => hc (List.cons.inj heq).1⟩

variable {word trail : List Char} (hne : word ≠ []) (hword : ∀ c ∈ word, isBlank c = false)
  (htrail : AllBlank trail) (hbreak : '\n' ∉ trail)
include hne hword htrail hbreak

-- The word keeps a carriage return in front of it from being taken for the end of a line.
theorem linesFrom_status {line : List Char} (hline : AllBlank line) (body : List Char) :
    ∃ status, linesFrom line (word ++ trail ++ '\n' :: body) = status :: lines body ∧
      trim status = word := by
  have hnobreak : '\n' ∉ word ++ trail := by
    intro hmem
    rcases List.mem_append.mp hmem with hmem | hmem
    · cases (hword _ hmem).symm.trans (by decide : isBlank '\n' = true)
    · exact hbreak hmem
  have hhead : (word.reverse ++ line).head? ≠ some '\r' := by
    obtain ⟨c, rest, hreverse⟩ := List.exists_cons_of_ne_nil (List.reverse_ne_nil_iff.mpr hne)
    have hc : isBlank c = false :=
      hword c (List.mem_reverse.mp (hreverse ▸ List.mem_cons_self))
    rw [hreverse]
    rintro ⟨rfl⟩
    cases hc.symm.trans (by decide : isBlank '\r' = true)
  obtain ⟨kept, hkept, hdrop⟩ := dropReturn_append htrail.reverse hhead
  refine ⟨(dropReturn (trail.reverse ++ (word.reverse ++ line))).reverse, ?_, ?_⟩
  · rw [linesFrom_append hnobreak, List.reverse_append, List.append_assoc]
    rfl
  · rw [hdrop, List.reverse_append, List.reverse_append, List.reverse_reverse]
    exact trim_padded hline.reverse hkept.reverse hword

-- Blank lines do not count: the first line that does is the one of the word.
theorem dropWhile_linesFrom {lead line : List Char} (hlead : AllBlank lead) (hline : AllBlank line)
    (body : List Char) :
    ∃ status, (linesFrom line (lead ++ (word ++ trail ++ '\n' :: body))).dropWhile
        (fun line => (trim line).isEmpty) = status :: lines body ∧ trim status = word := by
  induction lead generalizing line with
  | nil =>
      obtain ⟨status, hlines, htrim⟩ := linesFrom_status hne hword htrail hbreak hline body
      refine ⟨status, ?_, htrim⟩
      rw [List.nil_append, hlines, List.dropWhile_cons_of_neg (by simpa [htrim] using hne)]
  | cons c lead ih =>
      obtain ⟨hc, hothers⟩ := List.forall_mem_cons.mp hlead
      by_cases hend : c = '\n'
      · have hblank : trim (dropReturn line).reverse = [] := trim_blank hline.dropReturn.reverse
        rw [hend, List.cons_append, linesFrom, List.dropWhile_cons_of_pos (by simp [hblank])]
        exact ih hothers (by simp [AllBlank])
      · rw [List.cons_append, linesFrom.eq_3 _ _ _ (by simpa using hend)]
        exact ih hothers (List.forall_mem_cons.mpr ⟨hc, hline⟩)

end Status

-- How a text can change when its lines are taken apart and put together again: returns before a
-- line feed get lost, and so does the last line feed.
inductive Relined : List Char → List Char → Prop
  | nil : Relined [] []
  | last : Relined ['\n'] []
  | skip {rest kept : List Char} (h : Relined ('\n' :: rest) kept) :
      Relined ('\r' :: '\n' :: rest) kept
  | keep {rest kept : List Char} (c : Char) (h : Relined rest kept) : Relined (c :: rest) (c :: kept)

theorem Relined.append_left {text kept : List Char} (h : Relined text kept) (lead : List Char) :
    Relined (lead ++ text) (lead ++ kept) := by
  induction lead with
  | nil => exact h
  | cons c lead ih => exact ih.keep c

theorem relined_dropReturn {rest kept : List Char} (h : Relined ('\n' :: rest) kept)
    (line : List Char) :
    Relined (line.reverse ++ '\n' :: rest) ((dropReturn line).reverse ++ kept) := by
  unfold dropReturn
  split
  · rw [List.reverse_cons, List.append_assoc]
    exact h.skip.append_left _
  · exact h.append_left _

theorem linesFrom_ne_nil (line : List Char) {text : List Char} (h : text ≠ []) :
    linesFrom line text ≠ [] := by
  fun_induction linesFrom line text with
  | case1 => exact absurd rfl h
  | case2 => exact absurd rfl h
  | case3 => simp
  | case4 line c rest hc ih =>
      cases rest with
      | nil => simp [linesFrom]
      | cons d rest => exact ih (List.cons_ne_nil d rest)

-- Along the splitting: only the break itself, with a carriage return before it, is not kept as it
-- was.
theorem relined_linesFrom (line text : List Char) :
    Relined (line.reverse ++ text) (['\n'].intercalate (linesFrom line text)) := by
  fun_induction linesFrom line text with
  | case1 line hline =>
      rw [List.isEmpty_iff.mp hline]
      exact .nil
  | case2 line hline =>
      rw [List.intercalate_singleton]
      simpa using Relined.nil.append_left line.reverse
  | case3 line rest ih =>
      have hjoined : Relined rest (['\n'].intercalate (linesFrom [] rest)) := ih
      by_cases hrest : rest = []
      · subst hrest
        simpa [linesFrom] using relined_dropReturn .last line
      · rw [List.intercalate_cons_of_ne_nil (linesFrom_ne_nil [] hrest), List.append_assoc]
        exact relined_dropReturn (hjoined.keep '\n') line
  | case4 line c rest hc ih => simpa using ih

end Qualify.Text
