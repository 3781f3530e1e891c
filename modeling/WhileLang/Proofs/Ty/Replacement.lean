import WhileLang.Ty.Unification

/-!
# Replacing variables

A substitution is a finite map, but what it does to a type is told by the types it gives to single
variables.  This file replaces variables by any assignment of types, and relates substitutions to
assignments.

Main definitions:

- Function {lit}`Ty.replace`: a type with each variable replaced by the type assigned to it.
- Predicate {lit}`Solves`: an assignment makes both sides of all equations equal.

Main results:

- Theorem {lit}`Subst.apply_eq_replace`: applying a substitution is replacing variables.
- Theorem {lit}`Ty.replace_ne_of_mem_arrow`: no assignment equates a variable with an arrow that
  contains it.
-/

namespace WhileLang

/-! ## Types -/

namespace Ty

/-- A type with each variable replaced by the type assigned to it. -/
def replace (assignment : String → Ty) : Ty → Ty
  | .var name => assignment name
  | .con name => .con name
  | .arrow domain codomain => .arrow (domain.replace assignment) (codomain.replace assignment)

/-- Only the variables of a type matter for what replaces them. -/
theorem replace_congr {f g : String → Ty} {type : Ty} (h : ∀ x ∈ type.occurrences, f x = g x) :
    type.replace f = type.replace g := by
  induction type with
  | var name => exact h name (by simp [occurrences])
  | con _ => rfl
  | arrow domain codomain ihd ihc =>
    simp only [occurrences, List.mem_append] at h
    rw [replace, replace, ihd fun x hx => h x (Or.inl hx), ihc fun x hx => h x (Or.inr hx)]

/-- Replacing variables by themselves changes nothing. -/
@[simp]
theorem replace_var (type : Ty) : type.replace .var = type := by
  induction type with
  | var name => rfl
  | con _ => rfl
  | arrow domain codomain ihd ihc => rw [replace, ihd, ihc]

/-- Two replacements in a row are one. -/
theorem replace_replace (f g : String → Ty) (type : Ty) :
    (type.replace f).replace g = type.replace fun x => (f x).replace g := by
  induction type with
  | var name => rfl
  | con _ => rfl
  | arrow domain codomain ihd ihc => simp only [replace, ihd, ihc]

/-- What occurs after a replacement occurs in what replaced a variable. -/
theorem mem_occurrences_replace {f : String → Ty} {type : Ty} {y : String} :
    y ∈ (type.replace f).occurrences ↔ ∃ x ∈ type.occurrences, y ∈ (f x).occurrences := by
  induction type with
  | var name => simp [replace, occurrences]
  | con _ => simp [replace, occurrences]
  | arrow domain codomain ihd ihc =>
    simp only [replace, occurrences, List.mem_append, ihd, ihc]
    grind

/-- What replaces a variable of a type is no larger than the type becomes. -/
theorem typeSize_le_replace {f : String → Ty} {x : String} {type : Ty}
    (h : x ∈ type.occurrences) : Unify.typeSize (f x) ≤ Unify.typeSize (type.replace f) := by
  induction type with
  | var name =>
    have hx : x = name := by simpa [occurrences] using h
    exact hx ▸ Nat.le_refl _
  | con _ => simp [occurrences] at h
  | arrow domain codomain ihd ihc =>
    simp only [occurrences, List.mem_append] at h
    simp only [replace, Unify.typeSize]
    rcases h with h | h
    · have := ihd h
      omega
    · have := ihc h
      omega

/-- No assignment makes a variable equal to an arrow that contains it. -/
theorem replace_ne_of_mem_arrow {f : String → Ty} {x : String} {type : Ty}
    (harrow : type.isArrow = true) (h : x ∈ type.occurrences) : f x ≠ type.replace f := by
  intro heq
  cases type with
  | var _ => simp [isArrow] at harrow
  | con _ => simp [isArrow] at harrow
  | arrow domain codomain =>
    simp only [occurrences, List.mem_append] at h
    have hsize := congrArg Unify.typeSize heq
    simp only [replace, Unify.typeSize] at hsize
    rcases h with h | h
    · have := typeSize_le_replace (f := f) h
      omega
    · have := typeSize_le_replace (f := f) h
      omega

end Ty

/-! ## Substitutions as assignments -/

namespace Subst

/-- Applying a substitution replaces each variable by the type the substitution gives it. -/
theorem apply_eq_replace (subst : Subst) (type : Ty) :
    subst.apply type = type.replace fun x => subst.apply (.var x) := by
  induction type with
  | var name => rfl
  | con _ => rfl
  | arrow domain codomain ihd ihc => rw [apply, Ty.replace, ihd, ihc]

/-- What occurs in a type after a substitution occurred there before, or in the type of a bound
variable that did. -/
theorem mem_occurrences_apply {subst : Subst} {type : Ty} {y : String} :
    y ∈ (subst.apply type).occurrences ↔
      ∃ x ∈ type.occurrences, (subst.binds x = false ∧ y = x)
        ∨ ∃ bound, subst.get? x = some bound ∧ y ∈ bound.occurrences := by
  rw [apply_eq_replace, Ty.mem_occurrences_replace]
  refine exists_congr fun x => and_congr_right fun _ => ?_
  cases hx : subst.get? x with
  | none => simp [apply, binds, hx, Ty.occurrences]
  | some bound => simp [apply, binds, hx]

/-- A variable that is not bound is left as it is. -/
theorem apply_var_of_not_binds {subst : Subst} {x : String} (h : subst.binds x = false) :
    subst.apply (.var x) = .var x := by
  unfold binds at h
  cases hx : subst.get? x with
  | none => simp [apply, hx]
  | some type => simp [hx] at h

/-- A type without bound variables is left as it is. -/
theorem apply_eq_self {subst : Subst} {type : Ty}
    (h : ∀ x ∈ type.occurrences, subst.binds x = false) : subst.apply type = type := by
  rw [apply_eq_replace]
  calc
    type.replace (fun x => subst.apply (.var x)) = type.replace .var :=
      Ty.replace_congr fun x hx => apply_var_of_not_binds (h x hx)
    _ = type := Ty.replace_var type

/-- Where an assignment agrees with a single binding, substituting the binding first is no
change. -/
theorem replace_apply_single {f : String → Ty} {x : String} {type : Ty}
    (h : f x = type.replace f) (target : Ty) :
    ((single x type).apply target).replace f = target.replace f := by
  rw [apply_eq_replace, Ty.replace_replace]
  refine Ty.replace_congr fun y _ => ?_
  by_cases hy : y = x
  · subst hy
    simp [apply, get?_single, h]
  · simp [apply, get?_single, hy, Ty.replace]

end Subst

/-! ## Equations -/

/-- An assignment makes both sides of all equations equal. -/
def Solves (assignment : String → Ty) (constraints : List Constraint) : Prop :=
  ∀ constraint ∈ constraints, constraint.1.replace assignment = constraint.2.replace assignment

/-- There is nothing to solve without equations. -/
@[simp]
theorem solves_nil (f : String → Ty) : Solves f [] :=
  fun _ h => nomatch h

/-- Equations are solved one by one. -/
theorem solves_cons {f : String → Ty} {left right : Ty} {rest : List Constraint} :
    Solves f ((left, right) :: rest) ↔ left.replace f = right.replace f ∧ Solves f rest := by
  simp [Solves]

/-- Two lists of equations in a row are solved together. -/
theorem solves_append {f : String → Ty} {first second : List Constraint} :
    Solves f (first ++ second) ↔ Solves f first ∧ Solves f second := by
  simp only [Solves, List.mem_append, or_imp, forall_and]

/-- Substituting a binding that an assignment agrees with keeps what the assignment solves. -/
theorem solves_substitute {f : String → Ty} {x : String} {type : Ty} {pending : List Constraint}
    (h : f x = type.replace f) :
    Solves f (pending.map (Unify.substitute x type)) ↔ Solves f pending := by
  simp only [Solves, List.mem_map, forall_exists_index, and_imp, forall_apply_eq_imp_iff₂,
    Unify.substitute, Subst.replace_apply_single h]

end WhileLang
