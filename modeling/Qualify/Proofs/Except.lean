import Mathlib.Data.List.Basic

-- How a computation that may fail can have succeeded.
namespace Qualify.Except

variable {ε ε' α β γ : Type}

theorem bind_eq_ok {x : Except ε α} {f : α → Except ε β} {b : β} :
    x >>= f = .ok b ↔ ∃ a, x = .ok a ∧ f a = .ok b := by
  constructor
  · intro h
    cases x with
    | error e => cases h
    | ok a => exact ⟨a, rfl, h⟩
  · rintro ⟨a, rfl, h⟩
    exact h

theorem bind_of_ok {x : Except ε α} {f : α → Except ε β} {a : α} (h : x = .ok a) :
    x >>= f = f a := by
  rw [h]
  rfl

theorem bind_of_error {x : Except ε α} {f : α → Except ε β} {e : ε} (h : x = .error e) :
    x >>= f = .error e := by
  rw [h]
  rfl

theorem bind_return_eq_ok {x : Except ε α} {f : α → β} {b : β} :
    (do let a ← x; return f a) = Except.ok b ↔ ∃ a, x = .ok a ∧ b = f a := by
  rw [bind_eq_ok]
  exact exists_congr fun a => and_congr_right fun _ => ⟨fun h => by cases h; rfl, fun h => h ▸ rfl⟩

theorem bind_eq_error {x : Except ε α} {f : α → Except ε β} {e : ε} :
    x >>= f = .error e ↔ x = .error e ∨ ∃ a, x = .ok a ∧ f a = .error e := by
  cases x with
  | error e' =>
      refine ⟨fun h => .inl (congrArg Except.error (Except.error.inj h)), fun h => ?_⟩
      rcases h with h | ⟨a, ha, -⟩
      · cases h
        rfl
      · cases ha
  | ok a =>
      refine ⟨fun h => .inr ⟨a, rfl, h⟩, fun h => ?_⟩
      rcases h with h | ⟨a, ha, h⟩
      · cases h
      · cases ha
        exact h

theorem bind_return_eq_error {x : Except ε α} {f : α → β} {e : ε} :
    (do let a ← x; return f a) = Except.error e ↔ x = .error e := by
  rw [bind_eq_error]
  refine or_iff_left ?_
  rintro ⟨a, -, h⟩
  cases h

theorem exists_bind_return_eq_ok {x : Except ε α} {f : α → β} :
    (∃ b, (do let a ← x; return f a) = Except.ok b) ↔ ∃ a, x = .ok a := by
  simp only [bind_return_eq_ok]
  exact ⟨fun ⟨_, a, ha, _⟩ => ⟨a, ha⟩, fun ⟨a, ha⟩ => ⟨f a, a, ha, rfl⟩⟩

theorem bind₂_return_eq_ok {x : Except ε α} {y : Except ε γ} {f : α → γ → β} {b : β} :
    (do let a ← x; let c ← y; return f a c) = Except.ok b ↔
      ∃ a c, x = .ok a ∧ y = .ok c ∧ b = f a c := by
  rw [bind_eq_ok]
  refine exists_congr fun a => ?_
  rw [exists_and_left]
  exact and_congr_right fun _ => bind_return_eq_ok

theorem map_eq_ok {x : Except ε α} {f : α → β} {b : β} :
    x.map f = .ok b ↔ ∃ a, x = .ok a ∧ f a = b := by
  constructor
  · intro h
    cases x with
    | error e => cases h
    | ok a => exact ⟨a, rfl, Except.ok.inj h⟩
  · rintro ⟨a, rfl, rfl⟩
    rfl

theorem map_eq_error {x : Except ε α} {f : α → β} {e : ε} :
    x.map f = .error e ↔ x = .error e := by
  constructor
  · intro h
    cases x with
    | error e' => exact congrArg Except.error (Except.error.inj h)
    | ok a => cases h
  · rintro rfl
    rfl

theorem mapError_eq_ok {x : Except ε α} {f : ε → ε'} {a : α} :
    x.mapError f = .ok a ↔ x = .ok a := by
  constructor
  · intro h
    cases x with
    | error e => cases h
    | ok a' => exact congrArg Except.ok (Except.ok.inj h)
  · rintro rfl
    rfl

theorem isOk_iff {x : Except ε α} : x.isOk = true ↔ ∃ a, x = .ok a := by
  cases x with
  | error e => simp [Except.isOk, Except.toBool]
  | ok a => simp [Except.isOk, Except.toBool]

theorem isOk_congr {x : Except ε α} {y : Except ε' β} (h : ∀ a, x = .ok a → ∃ b, y = .ok b)
    (h' : ∀ b, y = .ok b → ∃ a, x = .ok a) : x.isOk = y.isOk := by
  rw [Bool.eq_iff_iff, isOk_iff, isOk_iff]
  exact ⟨fun ⟨a, ha⟩ => h a ha, fun ⟨b, hb⟩ => h' b hb⟩

theorem toOption_eq_some {x : Except ε α} {a : α} : x.toOption = some a ↔ x = .ok a := by
  cases x with
  | error e => simp [Except.toOption]
  | ok b => simp [Except.toOption]

theorem toOption_bind (x : Except ε α) (f : α → Except ε β) :
    (x >>= f).toOption = x.toOption.bind fun a => (f a).toOption := by
  cases x <;> rfl

def outcome (x : Except ε α) : Except ε Unit :=
  x.map fun _ => ()

theorem outcome_bind_return (x : Except ε α) (f : α → β) :
    outcome (do let a ← x; return f a) = outcome x := by
  cases x <;> rfl

theorem outcome_bind₂_return (x : Except ε α) (y : Except ε γ) (f : α → γ → β) :
    outcome (do let a ← x; let c ← y; return f a c) = outcome x >>= fun _ => outcome y := by
  cases x with
  | error e => rfl
  | ok a => exact outcome_bind_return y (f a)

theorem outcome_eq_cases {x : Except ε α} {y : Except ε β} (h : outcome x = outcome y) :
    (∃ e, x = .error e ∧ y = .error e) ∨ ∃ a b, x = .ok a ∧ y = .ok b := by
  cases x with
  | error e => exact .inl ⟨e, rfl, map_eq_error.mp h.symm⟩
  | ok a =>
      obtain ⟨b, hb, -⟩ := map_eq_ok.mp h.symm
      exact .inr ⟨a, b, rfl, hb⟩

-- What holds of each single result holds of all of them.
theorem forall_mem_of_mapM {f : α → Except ε β} {P : β → Prop}
    (hf : ∀ a b, f a = .ok b → P b) (items : List α) {results : List β}
    (h : items.mapM f = .ok results) : ∀ b ∈ results, P b := by
  induction items generalizing results with
  | nil =>
      cases h
      simp
  | cons a rest ih =>
      rw [List.mapM_cons] at h
      obtain ⟨b, hb, h⟩ := bind_eq_ok.mp h
      obtain ⟨others, hothers, h⟩ := bind_eq_ok.mp h
      cases h
      exact List.forall_mem_cons.mpr ⟨hf a b hb, ih hothers⟩

theorem length_of_mapM {f : α → Except ε β} {items : List α} {results : List β}
    (h : items.mapM f = .ok results) : results.length = items.length := by
  induction items generalizing results with
  | nil =>
      cases h
      rfl
  | cons a rest ih =>
      rw [List.mapM_cons] at h
      obtain ⟨b, -, h⟩ := bind_eq_ok.mp h
      obtain ⟨others, hothers, h⟩ := bind_eq_ok.mp h
      cases h
      exact congrArg (· + 1) (ih hothers)

theorem mapM_of_forall {f : α → Except ε β} {g : α → β} {items : List α}
    (h : ∀ a ∈ items, f a = .ok (g a)) : items.mapM f = .ok (items.map g) := by
  induction items with
  | nil => rfl
  | cons a rest ih =>
      obtain ⟨ha, hrest⟩ := List.forall_mem_cons.mp h
      rw [List.mapM_cons, bind_of_ok ha, bind_of_ok (ih hrest)]
      rfl

-- The first failure is the failure of the whole.
theorem mapM_cases (f : α → Except ε β) (items : List α) :
    (∀ a ∈ items, ∃ b, f a = .ok b) ∨
      ∃ a ∈ items, ∃ e, f a = .error e ∧ items.mapM f = .error e := by
  induction items with
  | nil => exact .inl (by simp)
  | cons a rest ih =>
      rw [List.mapM_cons]
      cases ha : f a with
      | error e => exact .inr ⟨a, List.mem_cons_self, e, ha, rfl⟩
      | ok b =>
          rcases ih with hall | ⟨other, hother, e, he, hrest⟩
          · exact .inl (List.forall_mem_cons.mpr ⟨⟨b, ha⟩, hall⟩)
          · refine .inr ⟨other, List.mem_cons_of_mem a hother, e, he, ?_⟩
            exact (bind_of_ok rfl).trans (bind_of_error hrest)

theorem foldlM_cases (f : β → α → Except ε β) (items : List α) (b : β) :
    ((∃ result, items.foldlM f b = .ok result) ∧ ∀ a ∈ items, ∃ c d, f c a = .ok d) ∨
      ∃ a ∈ items, ∃ c e, f c a = .error e ∧ items.foldlM f b = .error e := by
  induction items generalizing b with
  | nil => exact .inl ⟨⟨b, rfl⟩, by simp⟩
  | cons a rest ih =>
      rw [List.foldlM_cons]
      cases ha : f b a with
      | error e => exact .inr ⟨a, List.mem_cons_self, b, e, ha, rfl⟩
      | ok d =>
          rcases ih d with ⟨hok, hall⟩ | ⟨other, hother, c, e, he, hrest⟩
          · exact .inl ⟨hok, List.forall_mem_cons.mpr ⟨⟨b, d, ha⟩, hall⟩⟩
          · exact .inr ⟨other, List.mem_cons_of_mem a hother, c, e, he, hrest⟩

theorem foldlM_invariant {f : β → α → Except ε β} {P : β → Prop}
    (hf : ∀ b a b', P b → f b a = .ok b' → P b') (items : List α) {b result : β}
    (hb : P b) (h : items.foldlM f b = .ok result) : P result := by
  induction items generalizing b with
  | nil =>
      cases h
      exact hb
  | cons a rest ih =>
      rw [List.foldlM_cons] at h
      obtain ⟨b', hb', h⟩ := bind_eq_ok.mp h
      exact ih (hf b a b' hb hb') h

end Qualify.Except
