import Mathlib.Data.Set.Function
import WhileLang.Proofs.Ty.MostGeneral
import WhileLang.Proofs.Typing.Rules

/-!
# Instances and renamings

Types are told apart by their instances.  Two types that are instances of each other differ in the
names of their variables only, and the types that solve equations are the instances of one type,
which unification finds.

Main definitions:

- Relation {lit}`Ty.IsVariant`: types that are equal up to a renaming of variables.
- Relation {lit}`Ty.SameInstances`: types of which the same types are instances.

Main results:

- Theorem {lit}`Ty.SameInstances.isVariant`: such types are equal up to a renaming.
- Theorem {lit}`isInstance_apply_iff`: the instances of a solved type are the solutions.
-/

namespace WhileLang

namespace Ty

/-! ## Renamings -/

/-- A type is another one with its variables renamed, different ones differently. -/
def IsVariant (type other : Ty) : Prop :=
  ∃ rename : String → String, Set.InjOn rename {name | name ∈ type.occurrences}
    ∧ other = type.replace fun name => .var (rename name)

/-- The same types are instances of both types. -/
def SameInstances (type other : Ty) : Prop :=
  ∀ special : Ty, special.IsInstance type ↔ special.IsInstance other

/-- A replacement that keeps a type keeps the variables of the type. -/
theorem eq_var_of_replace_eq_self {type : Ty} {f : String → Ty} (h : type.replace f = type) :
    ∀ name ∈ type.occurrences, f name = .var name := by
  induction type with
  | var name =>
    intro other hmem
    obtain rfl := List.mem_singleton.1 hmem
    exact h
  | con name => nofun
  | arrow domain codomain ihd ihc =>
    simp only [replace, arrow.injEq] at h
    intro name hmem
    exact (List.mem_append.1 hmem).elim (ihd h.1 name) (ihc h.2 name)

theorem IsInstance.refl (type : Ty) : type.IsInstance type :=
  ⟨.var, type.replace_var.symm⟩

/-- Only a variable becomes a variable. -/
theorem exists_var_of_replace {type : Ty} {f : String → Ty} {name : String}
    (h : type.replace f = .var name) : ∃ other, type = .var other ∧ f other = .var name := by
  cases type with
  | var other => exact ⟨other, rfl, h⟩
  | con => cases h
  | arrow => cases h

/-- Types with the same instances are equal up to a renaming of variables. -/
theorem SameInstances.isVariant {type other : Ty} (h : type.SameInstances other) :
    type.IsVariant other := by
  obtain ⟨back, hback⟩ := (h type).1 (.refl type)
  obtain ⟨forth, rfl⟩ := (h other).2 (.refl other)
  -- There and back again every variable becomes itself, so it is a variable in between.
  rw [replace_replace] at hback
  have hround := eq_var_of_replace_eq_self hback.symm
  choose! rename hrename hinverse using
    fun name hmem => exists_var_of_replace (hround name hmem)
  refine ⟨rename, fun first hfirst second hsecond heq => ?_, ?_⟩
  · have hsame := hinverse first hfirst
    rw [heq, hinverse second hsecond] at hsame
    exact (var.inj hsame).symm
  · exact replace_congr hrename

end Ty

/-! ## Solved types -/

theorem Solves.replace {assignment : String → Ty} {constraints : List Constraint}
    (h : Solves assignment constraints) (f : String → Ty) :
    Solves (fun x => (assignment x).replace f) constraints := by
  intro constraint hmem
  rw [← Ty.replace_replace, ← Ty.replace_replace, h constraint hmem]

/-- Equations that cannot be unified have no solution. -/
theorem not_solves_of_unify {constraints : List Constraint} {error : SemanticError}
    (h : unify constraints = .error error) (assignment : String → Ty) :
    ¬ Solves assignment constraints := by
  have hspec := Unify.solve_spec (Unify.Progress.start constraints)
  unfold unify at h
  split at h
  · rename_i hsolve
    rw [hsolve] at hspec
    exact hspec.2 assignment
  · rename_i solution hsolve
    rw [hsolve] at hspec
    rw [Unify.checkSolution_eq_ok hspec.merge_isMostGeneral.unifies] at h
    cases h

/-- Any solution only replaces what is left of a type when the equations were unified. -/
theorem replace_apply_of_solves {constraints : List Constraint} {subst : Subst}
    (h : unify constraints = .ok subst) {assignment : String → Ty}
    (hsolves : Solves assignment constraints) (type : Ty) :
    (subst.apply type).replace assignment = type.replace assignment := by
  obtain ⟨found, hfound, rfl⟩ := unify_eq_ok.1 h
  exact (Unify.Progress.of_solve hfound).replace_merge hsolves type

/-- The instances of a solved type are what the solutions of the equations make of the type. -/
theorem isInstance_apply_iff {constraints : List Constraint} {subst : Subst}
    (h : unify constraints = .ok subst) {type general : Ty} :
    type.IsInstance (subst.apply general) ↔
      ∃ assignment, Solves assignment constraints ∧ type = general.replace assignment := by
  constructor
  · rintro ⟨f, rfl⟩
    refine ⟨_, (unify_solves h).replace f, ?_⟩
    rw [← Ty.replace_replace, ← Subst.apply_eq_replace]
  · rintro ⟨assignment, hsolves, rfl⟩
    exact ⟨assignment, (replace_apply_of_solves h hsolves general).symm⟩

end WhileLang
