import Qualify.Proofs.Except

-- Entries for keys, made one after another, where a later entry for a key takes the place of an
-- earlier one.
namespace Qualify.Entries

theorem lookup_cons_eq {ι β : Type} [BEq ι] [LawfulBEq ι] [DecidableEq ι] (key other : ι)
    (value : β) (rest : List (ι × β)) :
    ((key, value) :: rest).lookup other = if key = other then some value else rest.lookup other := by
  rw [List.lookup_cons]
  by_cases h : key = other
  · simp [h]
  · simp [h, beq_false_of_ne (Ne.symm h)]

variable {α κ : Type} [DecidableEq κ]

def lastFor (key : α → κ) (k : κ) (entries : List α) : Option α :=
  (entries.filter fun entry => key entry = k).getLast?

variable {key : α → κ} {k : κ}

theorem lastFor_cons (entry : α) (rest : List α) :
    lastFor key k (entry :: rest) =
      (lastFor key k rest).or (if key entry = k then some entry else none) := by
  by_cases heq : key entry = k
  · cases hlast : (rest.filter fun entry => key entry = k).getLast? <;>
      simp [lastFor, heq, hlast, List.getLast?_cons]
  · simp [lastFor, heq]

theorem lastFor_eq_none_iff {entries : List α} :
    lastFor key k entries = none ↔ ∀ entry ∈ entries, key entry ≠ k := by
  simp [lastFor]

-- No entry behind the last one is for the same key.
theorem lastFor_eq_some_iff {entries : List α} {entry : α} :
    lastFor key k entries = some entry ↔
      ∃ earlier later, entries = earlier ++ entry :: later ∧ key entry = k ∧
        ∀ other ∈ later, key other ≠ k := by
  constructor
  · intro h
    obtain ⟨others, hothers⟩ := List.getLast?_eq_some_iff.mp h
    obtain ⟨front, back, rfl, -, hback⟩ := List.filter_eq_append_iff.mp hothers
    obtain ⟨skipped, later, rfl, -, heq, hlater⟩ := List.filter_eq_cons_iff.mp hback
    refine ⟨front ++ skipped, later, by simp, by simpa using heq, ?_⟩
    simpa [List.filter_eq_nil_iff] using hlater
  · rintro ⟨earlier, later, rfl, heq, hlater⟩
    have hnone : later.filter (fun other => key other = k) = [] := by
      simpa [List.filter_eq_nil_iff] using hlater
    simp [lastFor, heq, hnone]

theorem mem_of_lastFor {entries : List α} {entry : α} (h : lastFor key k entries = some entry) :
    entry ∈ entries ∧ key entry = k := by
  obtain ⟨earlier, later, rfl, heq, -⟩ := lastFor_eq_some_iff.mp h
  exact ⟨by simp, heq⟩

variable (key) (k)

-- What is read of the state after all entries is the value of the last entry for the key, or what
-- was there before if no entry is for it.
theorem read_foldlM {ε σ β : Type} {step : σ → α → Except ε σ} (Inv : σ → Prop)
    (read : σ → Option β) {value : α → Option β}
    (hstep : ∀ before entry after, Inv before → step before entry = .ok after →
      Inv after ∧ read after = if key entry = k then value entry else read before)
    (entries : List α) {before after : σ} (hinv : Inv before)
    (h : entries.foldlM step before = .ok after) :
    Inv after ∧ read after = (lastFor key k entries).elim (read before) value := by
  induction entries generalizing before with
  | nil =>
      cases h
      exact ⟨hinv, rfl⟩
  | cons entry rest ih =>
      rw [List.foldlM_cons] at h
      obtain ⟨next, hnext, h⟩ := Except.bind_eq_ok.mp h
      obtain ⟨hinv', hread⟩ := hstep before entry next hinv hnext
      obtain ⟨hafter, hlast⟩ := ih hinv' h
      refine ⟨hafter, ?_⟩
      rw [hlast, lastFor_cons, hread]
      by_cases heq : key entry = k
      · cases lastFor key k rest <;> simp [heq]
      · simp [heq]

end Qualify.Entries
