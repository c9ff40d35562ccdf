import Qualify.Proofs.Lattice.Checks

namespace Qualify.Lattice

namespace Declaration

variable (declaration : Declaration)

def FailsFirst (e : Error) : Prop :=
  ∃ passed check left, Check.all = passed ++ check :: left ∧
    (∀ earlier ∈ passed, declaration.Passes earlier) ∧ declaration.Reports e check

structure Realizes (lattice : Lattice) : Prop where
  passes : ∀ check, declaration.Passes check
  names_eq : lattice.names = declaration.names
  order_eq : lattice.order = declaration.order
  joins_eq : ∀ a b, a < declaration.names.length → b < declaration.names.length →
    ∃ c, leastUpperBound? declaration.order a b = some c ∧ lattice.joins.get? a b = some c

-- Each step of the construction leaves what comes after it, or ends it.
theorem build_cases :
    (∃ lattice, build declaration = .ok lattice ∧ declaration.Realizes lattice) ∨
      ∃ e, build declaration = .error e ∧ declaration.FailsFirst e := by
  rcases checkNonempty_cases declaration.names with ⟨hnonempty, hstep⟩ | ⟨hempty, hstep⟩
  swap
  · exact .inr ⟨_, Except.bind_of_error hstep, [], _, _, rfl, by simp, .empty hempty⟩
  have hpasses : declaration.Passes .nonempty := hnonempty
  have hbuild : build declaration = _ := Except.bind_of_ok hstep
  rcases checkDistinct_cases declaration.names with ⟨hdistinct, hstep⟩ | ⟨name, hcount, hstep⟩
  swap
  · exact .inr ⟨_, hbuild.trans (Except.bind_of_error hstep), [.nonempty], _, _, rfl,
      by simp [hpasses], .duplicate hcount⟩
  have hdistinct : declaration.Passes .distinct := hdistinct
  replace hbuild := hbuild.trans (Except.bind_of_ok hstep)
  rcases declaration.resolveEdges_cases with ⟨hedges, hstep⟩ | ⟨e, hreports, hstep⟩
  swap
  · exact .inr ⟨e, hbuild.trans (Except.bind_of_error hstep), [.nonempty, .distinct], _, _, rfl,
      by simp [hpasses, hdistinct], hreports⟩
  replace hbuild := hbuild.trans (Except.bind_of_ok hstep)
  rcases checkAcyclic_cases hdistinct hedges with ⟨hacyclic, hstep⟩ | ⟨e, hreports, hstep⟩
  swap
  · exact .inr ⟨e, hbuild.trans (Except.bind_of_error hstep), [.nonempty, .distinct, .edgeNames],
      _, _, rfl, by simp [hpasses, hdistinct, hedges], hreports⟩
  replace hbuild := hbuild.trans (Except.bind_of_ok hstep)
  rcases joinTable_cases hdistinct hedges with ⟨hjoins, joins, hstep, hcells⟩ | ⟨e, hreports, hstep⟩
  swap
  · exact .inr ⟨e, hbuild.trans (Except.bind_of_error hstep),
      [.nonempty, .distinct, .edgeNames, .acyclic], _, _, rfl,
      by simp [hpasses, hdistinct, hedges, hacyclic], hreports⟩
  replace hbuild := hbuild.trans (Except.bind_of_ok hstep)
  have hearlier : ∀ check ∈ [Check.nonempty, .distinct, .edgeNames, .acyclic, .joins],
      declaration.Passes check := by
    simp [hpasses, hdistinct, hedges, hacyclic, hjoins]
  rcases declaration.viewTable_cases with
    ⟨hviews, views, hstep⟩ | ⟨name, hname, hunknown, hstep⟩
  swap
  · exact .inr ⟨_, hbuild.trans (Except.bind_of_error hstep), _, _, _, rfl, hearlier,
      .entry (List.mem_append_left _ hname) hunknown⟩
  replace hbuild := hbuild.trans (Except.bind_of_ok hstep)
  rcases declaration.operationTables_cases joins with
    ⟨hoperations, operations, hstep⟩ | ⟨name, hname, hunknown, hstep⟩
  swap
  · exact .inr ⟨_, hbuild.trans (Except.bind_of_error hstep), _, _, _, rfl, hearlier,
      .entry (List.mem_append_right _ hname) hunknown⟩
  replace hbuild := hbuild.trans (Except.bind_of_ok hstep)
  have hentries : declaration.Passes .entryNames :=
    List.forall_mem_append.mpr ⟨hviews, hoperations⟩
  refine .inl ⟨_, hbuild, fun check => ?_, rfl, rfl, hcells⟩
  cases check with
  | entryNames => exact hentries
  | _ => exact hearlier _ (by simp)

variable {declaration} {lattice : Lattice}

namespace Realizes

variable (h : declaration.Realizes lattice)
include h

theorem size_eq : lattice.size = declaration.names.length :=
  congrArg List.length h.names_eq

theorem name_eq (a : Qualifier) : lattice.name a = declaration.names.getD a "" := by
  rw [name, name?, h.names_eq, List.getD_eq_getElem?_getD]

-- Subtyping is the order that the edges generate.
theorem isSubtype_iff {a b : Qualifier} (ha : a < lattice.size) (hb : b < lattice.size) :
    lattice.isSubtype a b = true ↔ declaration.Below (lattice.name a) (lattice.name b) := by
  rw [h.size_eq] at ha hb
  rw [isSubtype, h.order_eq, h.name_eq, h.name_eq]
  exact holds_order_iff (h.passes .distinct) (h.passes .edgeNames) ha hb

theorem name_mem {a : Qualifier} (ha : a < lattice.size) : lattice.name a ∈ declaration.names := by
  rw [h.name_eq]
  exact getD_mem (h.size_eq ▸ ha)

theorem lub?_eq {a b : Qualifier} (ha : a < lattice.size) (hb : b < lattice.size) :
    lattice.lub? a b = some (lattice.lub a b) := by
  rw [h.size_eq] at ha hb
  obtain ⟨c, -, hc⟩ := h.joins_eq a b ha hb
  rw [lub, lub?, hc]
  rfl

theorem isJoin_lub {a b : Qualifier} (ha : a < lattice.size) (hb : b < lattice.size) :
    lattice.IsJoin a b (lattice.lub a b) := by
  obtain ⟨c, hfound, hc⟩ := h.joins_eq a b (h.size_eq ▸ ha) (h.size_eq ▸ hb)
  have heq : lattice.lub a b = c := by rw [lub, lub?, hc, Option.getD_some]
  obtain ⟨hlt, hjoin⟩ := leastUpperBound?_eq_some (h.passes .distinct) (h.passes .edgeNames)
    (h.size_eq ▸ ha) (h.size_eq ▸ hb) hfound
  rw [← h.size_eq] at hlt
  rw [← h.name_eq, ← h.name_eq, ← h.name_eq] at hjoin
  rw [heq]
  refine ⟨hlt, (h.isSubtype_iff ha hlt).mpr hjoin.left, (h.isSubtype_iff hb hlt).mpr hjoin.right,
    fun d hd had hbd => ?_⟩
  exact (h.isSubtype_iff hlt hd).mpr (hjoin.least _ (h.name_mem hd)
    ((h.isSubtype_iff ha hd).mp had) ((h.isSubtype_iff hb hd).mp hbd))

theorem ordered : lattice.Ordered where
  size_pos := h.size_eq ▸ List.length_pos_of_ne_nil (h.passes .nonempty)
  refl a ha := (h.isSubtype_iff ha ha).mpr .refl
  trans a b c ha hb hc hab hbc := (h.isSubtype_iff ha hc).mpr
    (((h.isSubtype_iff ha hb).mp hab).trans ((h.isSubtype_iff hb hc).mp hbc))
  antisymm a b ha hb hab hba := by
    have hname := h.passes .acyclic _ (h.name_mem ha) _ (h.name_mem hb)
      ((h.isSubtype_iff ha hb).mp hab) ((h.isSubtype_iff hb ha).mp hba)
    rw [h.name_eq, h.name_eq] at hname
    have hindex := congrArg declaration.names.idxOf hname
    rwa [idxOf_getD (h.passes .distinct) (h.size_eq ▸ ha),
      idxOf_getD (h.passes .distinct) (h.size_eq ▸ hb)] at hindex
  isJoin_lub a b ha hb := h.isJoin_lub ha hb

end Realizes

theorem FailsFirst.not_passes {e : Error} (h : declaration.FailsFirst e) :
    ¬∀ check, declaration.Passes check := by
  obtain ⟨passed, check, left, -, -, hreports⟩ := h
  exact fun hall => hreports.not_passes (hall check)

end Declaration

theorem build_realizes {declaration : Declaration} {lattice : Lattice}
    (h : build declaration = .ok lattice) : declaration.Realizes lattice := by
  rcases declaration.build_cases with ⟨built, hbuild, hrealizes⟩ | ⟨e, herror, -⟩
  · cases h.symm.trans hbuild
    exact hrealizes
  · cases h.symm.trans herror

theorem build_ordered {declaration : Declaration} {lattice : Lattice}
    (h : build declaration = .ok lattice) : lattice.Ordered :=
  (build_realizes h).ordered

-- A declaration makes a lattice exactly when it passes all checks, and the first check that it
-- does not pass gives the error. In the lattice the order is that of the edges, any two
-- qualifiers have a least upper bound, and the extremes are found.
theorem build_exact (declaration : Declaration) :
    ((∃ lattice, build declaration = .ok lattice) ↔ ∀ check, declaration.Passes check) ∧
      (∀ lattice, build declaration = .ok lattice →
        lattice.names = declaration.names ∧
        (∀ a b, a < lattice.size → b < lattice.size →
          (lattice.isSubtype a b = true ↔
            declaration.Below (lattice.name a) (lattice.name b)) ∧
          lattice.lub? a b = some (lattice.lub a b) ∧
          lattice.IsJoin a b (lattice.lub a b) ∧
          lattice.lub a b = lattice.lub b a ∧
          lattice.lub a a = a ∧
          ∀ c < lattice.size,
            lattice.lub (lattice.lub a b) c = lattice.lub a (lattice.lub b c)) ∧
        (∃ t < lattice.size, lattice.top? = some t ∧
          ∀ q < lattice.size, lattice.isSubtype q t = true) ∧
        ∀ b, lattice.bottom? = some b ↔
          b < lattice.size ∧ ∀ q < lattice.size, lattice.isSubtype b q = true) ∧
      ∀ e, build declaration = .error e →
        ∃ passed check left, Check.all = passed ++ check :: left ∧
          (∀ earlier ∈ passed, declaration.Passes earlier) ∧ ¬declaration.Passes check ∧
          declaration.Reports e check := by
  refine ⟨⟨?_, fun hall => ?_⟩, fun lattice hbuild => ?_, fun e herror => ?_⟩
  · rintro ⟨lattice, hbuild⟩
    exact (build_realizes hbuild).passes
  · rcases declaration.build_cases with ⟨lattice, hbuild, -⟩ | ⟨e, -, hfails⟩
    · exact ⟨lattice, hbuild⟩
    · exact absurd hall hfails.not_passes
  · have hrealizes := build_realizes hbuild
    have hordered := hrealizes.ordered
    refine ⟨hrealizes.names_eq, fun a b ha hb => ?_, ?_, fun b => hordered.bottom?_eq_some_iff⟩
    · exact ⟨hrealizes.isSubtype_iff ha hb, hrealizes.lub?_eq ha hb, hrealizes.isJoin_lub ha hb,
        hordered.lub_comm ha hb, hordered.lub_self ha, fun c hc => hordered.lub_assoc ha hb hc⟩
    · obtain ⟨t, htop⟩ := hordered.exists_top
      obtain ⟨ht, habove⟩ := hordered.top?_eq_some_iff.mp htop
      exact ⟨t, ht, htop, habove⟩
  · rcases declaration.build_cases with ⟨lattice, hbuild, -⟩ | ⟨e', hfail, hfirst⟩
    · cases herror.symm.trans hbuild
    · cases herror.symm.trans hfail
      obtain ⟨passed, check, left, hall, hpassed, hreports⟩ := hfirst
      exact ⟨passed, check, left, hall, hpassed, hreports.not_passes, hreports⟩

end Qualify.Lattice
