import WhileLang.Proofs.Ty.MostGeneral

/-!
# Unification is local

Equations over different variables do not see each other.  Of equations that are solved together,
those over some of the variables are solved as if they were alone, if no equation is over variables
of both sorts.

Main definitions:

- Predicate {lit}`Within`: equations over some variables.
- Relation {lit}`Selects`: the equations of a list that are over some variables.

Main results:

- Theorem {lit}`Unify.solve_selected`: the bindings of some variables come from their equations.
- Theorem {lit}`unify_selected`: so does all that the solution makes of types over them.
-/

namespace WhileLang

open Unify

variable {inside : String → Prop}

/-! ## Equations over some variables -/

/-- Equations have variables of a sort only. -/
def Within (inside : String → Prop) (constraints : List Constraint) : Prop :=
  ∀ x ∈ constraintVars constraints, inside x

theorem within_append {first second : List Constraint} :
    Within inside (first ++ second) ↔ Within inside first ∧ Within inside second := by
  unfold Within
  rw [constraintVars_append]
  exact List.forall_mem_append

theorem within_cons {constraint : Constraint} {rest : List Constraint} :
    Within inside (constraint :: rest) ↔ Within inside [constraint] ∧ Within inside rest :=
  @within_append inside [constraint] rest

theorem within_singleton {left right : Ty} :
    Within inside [(left, right)] ↔
      (∀ x ∈ left.occurrences, inside x) ∧ ∀ x ∈ right.occurrences, inside x := by
  simp only [Within, constraintVars, List.flatMap_cons, List.flatMap_nil, List.append_nil]
  exact List.forall_mem_append

theorem Within.mono {other : String → Prop} {constraints : List Constraint}
    (h : Within inside constraints) (hsub : ∀ x, inside x → other x) : Within other constraints :=
  fun x hx => hsub x (h x hx)

theorem Within.substitute {constraint : Constraint} (h : Within inside [constraint])
    {name : String} {type : Ty} (htype : ∀ x ∈ type.occurrences, inside x) :
    Within inside [substitute name type constraint] := by
  intro x hx
  have hsubstituted : x ∈ constraintVars ([constraint].map (Unify.substitute name type)) := hx
  rcases mem_constraintVars_substitute hsubstituted with ⟨hx, -⟩ | hx
  · exact h x hx
  · exact htype x hx

/-- Only the types of their variables matter for equations. -/
theorem Within.solves {constraints : List Constraint} (h : Within inside constraints)
    {f g : String → Ty} (hsame : ∀ x, inside x → f x = g x) (hsolves : Solves f constraints) :
    Solves g constraints := by
  intro constraint hmem
  have hconstraint (x : String) (hx : x ∈ constraint.1.occurrences ++ constraint.2.occurrences) :
      g x = f x :=
    (hsame x (h x (List.mem_flatMap.2 ⟨constraint, hmem, hx⟩))).symm
  obtain ⟨hleft, hright⟩ := List.forall_mem_append.1 hconstraint
  rw [Ty.replace_congr hleft, Ty.replace_congr hright]
  exact hsolves constraint hmem

/-- Replacing a variable changes nothing where it does not occur. -/
theorem substitute_eq_self {constraint : Constraint} {name : String} (type : Ty)
    (h : Within (· ≠ name) [constraint]) : substitute name type constraint = constraint := by
  obtain ⟨left, right⟩ := constraint
  obtain ⟨hleft, hright⟩ := within_singleton.1 h
  have hbinds {x : String} (hx : x ≠ name) : (Subst.single name type).binds x = false := by
    simp [Subst.binds, Subst.get?_single, hx]
  exact Prod.ext (Subst.apply_eq_self fun x hx => hbinds (hleft x hx))
    (Subst.apply_eq_self fun x hx => hbinds (hright x hx))

/-- The equations of a list that are over variables of a sort; the others are over none of these. -/
inductive Selects (inside : String → Prop) : List Constraint → List Constraint → Prop where
  | nil : Selects inside [] []
  | keep {constraint : Constraint} {own all : List Constraint} (h : Within inside [constraint])
      (hrest : Selects inside own all) : Selects inside (constraint :: own) (constraint :: all)
  | drop {constraint : Constraint} {own all : List Constraint}
      (h : Within (fun x => ¬ inside x) [constraint]) (hrest : Selects inside own all) :
      Selects inside own (constraint :: all)

namespace Selects

variable {own all : List Constraint}

theorem within (h : Selects inside own all) : Within inside own := by
  induction h with
  | nil => simp [Within, constraintVars]
  | keep hconstraint _ ih => exact within_cons.2 ⟨hconstraint, ih⟩
  | drop _ _ ih => exact ih

/-- All equations are selected in front of others. -/
theorem keep_append {front : List Constraint} (hfront : Within inside front)
    (h : Selects inside own all) : Selects inside (front ++ own) (front ++ all) := by
  induction front with
  | nil => exact h
  | cons constraint rest ih =>
    obtain ⟨hconstraint, hrest⟩ := within_cons.1 hfront
    exact .keep hconstraint (ih hrest)

theorem refl (h : Within inside own) : Selects inside own own := by
  rw [← own.append_nil]
  exact Selects.nil.keep_append h

/-- No equation is selected in front of others. -/
theorem drop_append {front : List Constraint} (hfront : Within (fun x => ¬ inside x) front)
    (h : Selects inside own all) : Selects inside own (front ++ all) := by
  induction front with
  | nil => exact h
  | cons constraint rest ih =>
    obtain ⟨hconstraint, hrest⟩ := within_cons.1 hfront
    exact .drop hconstraint (ih hrest)

/-- No equation is selected behind others. -/
theorem append_drop {behind : List Constraint} (h : Selects inside own all)
    (hbehind : Within (fun x => ¬ inside x) behind) : Selects inside own (all ++ behind) := by
  induction h with
  | nil => simpa using Selects.nil.drop_append hbehind
  | keep hconstraint _ ih => exact .keep hconstraint ih
  | drop hconstraint _ ih => exact .drop hconstraint ih

/-- Replacing a variable of the sort concerns the selected equations only. -/
theorem substitute_inside (h : Selects inside own all) {name : String} {type : Ty}
    (hname : inside name) (htype : ∀ x ∈ type.occurrences, inside x) :
    Selects inside (own.map (substitute name type)) (all.map (substitute name type)) := by
  induction h with
  | nil => exact .nil
  | keep hconstraint _ ih => exact .keep (hconstraint.substitute htype) ih
  | drop hconstraint _ ih =>
    rw [List.map_cons, substitute_eq_self]
    · exact .drop hconstraint ih
    · rintro x hx rfl
      exact hconstraint x hx hname

/-- Replacing another variable leaves the selected equations alone. -/
theorem substitute_outside (h : Selects inside own all) {name : String} {type : Ty}
    (hname : ¬ inside name) (htype : ∀ x ∈ type.occurrences, ¬ inside x) :
    Selects inside own (all.map (substitute name type)) := by
  induction h with
  | nil => exact .nil
  | keep hconstraint _ ih =>
    rw [List.map_cons, substitute_eq_self]
    · exact .keep hconstraint ih
    · rintro x hx rfl
      exact hname (hconstraint x hx)
  | drop hconstraint _ ih => exact .drop (hconstraint.substitute htype) ih

end Selects

/-! ## Steps -/

namespace Unify

variable {own all : List Constraint} {solution solution' : Subst}

/-- Only the bindings of its own variables matter for an equation. -/
theorem step_congr {left right : Ty}
    (h : ∀ x ∈ left.occurrences ++ right.occurrences, solution.get? x = solution'.get? x) :
    step left right solution = step left right solution' := by
  have hmeet (name : String) (type : Ty) (hname : name ∈ left.occurrences ++ right.occurrences) :
      meet name type solution = meet name type solution' := by
    unfold meet
    rw [h name hname]
  cases left with
  | var a =>
    have hleft := hmeet a right (by simp [Ty.occurrences])
    cases right with
    | var b => rw [step, step, hleft]
    | con | arrow => exact hleft
  | con c =>
    cases right with
    | var b => exact hmeet b (.con c) (by simp [Ty.occurrences])
    | con | arrow => rfl
  | arrow domain codomain =>
    cases right with
    | var b => exact hmeet b (.arrow domain codomain) (by simp [Ty.occurrences])
    | con | arrow => rfl

/-- The next binding is one of the selected equations, or it does not concern them. -/
theorem nextBinding_selected (h : Selects inside own all)
    (hsame : ∀ x, inside x → solution.get? x = solution'.get? x) :
    match nextBinding all solution with
    | .error _ => True
    | .ok none => nextBinding own solution' = .ok none
    | .ok (some next) => ∃ rest, Selects inside rest next.rest ∧
        ((inside next.name ∧ (∀ x ∈ next.type.occurrences, inside x)
            ∧ nextBinding own solution' = .ok (some ⟨next.name, next.type, rest⟩))
          ∨ (¬ inside next.name ∧ (∀ x ∈ next.type.occurrences, ¬ inside x)
            ∧ nextBinding own solution' = nextBinding rest solution')) := by
  fun_induction nextBinding all solution generalizing own with
  | case1 =>
    cases h
    rw [nextBinding]
  | case2 => trivial
  | case3 left right rest parts stepped ih =>
    have hparts := (step_replace stepped).2
    cases h with
    | keep hconstraint hrest =>
      obtain ⟨hleft, hright⟩ := within_singleton.1 hconstraint
      have hown (x : String) (hx : x ∈ left.occurrences ++ right.occurrences) : inside x :=
        List.forall_mem_append.2 ⟨hleft, hright⟩ x hx
      have hstep := step_congr fun x hx => hsame x (hown x hx)
      rw [nextBinding_cons, ← hstep, stepped]
      exact ih (hrest.keep_append fun x hx => hown x (hparts x hx))
    | drop hconstraint hrest =>
      obtain ⟨hleft, hright⟩ := within_singleton.1 hconstraint
      exact ih (hrest.drop_append fun x hx =>
        List.forall_mem_append.2 ⟨hleft, hright⟩ x (hparts x hx))
  | case4 left right rest name type stepped =>
    obtain ⟨hname, htype, -⟩ := step_bind stepped
    cases h with
    | @keep _ own _ hconstraint hrest =>
      obtain ⟨hleft, hright⟩ := within_singleton.1 hconstraint
      have hown (x : String) (hx : x ∈ left.occurrences ++ right.occurrences) : inside x :=
        List.forall_mem_append.2 ⟨hleft, hright⟩ x hx
      have hstep := step_congr fun x hx => hsame x (hown x hx)
      refine ⟨own, hrest, .inl ⟨hown _ hname, fun x hx => hown x (htype x hx), ?_⟩⟩
      rw [nextBinding_cons, ← hstep, stepped]
    | drop hconstraint hrest =>
      obtain ⟨hleft, hright⟩ := within_singleton.1 hconstraint
      have hother (x : String) (hx : x ∈ left.occurrences ++ right.occurrences) : ¬ inside x :=
        List.forall_mem_append.2 ⟨hleft, hright⟩ x hx
      exact ⟨own, hrest, .inr ⟨hother _ hname, fun x hx => hother x (htype x hx), rfl⟩⟩

/-! ## Solving -/

/-- Some variables are bound as if the equations over them were alone. -/
theorem solve_selected (h : Selects inside own all)
    (hsame : ∀ x, inside x → solution.get? x = solution'.get? x) {found : Subst}
    (hsolve : solve all solution = .ok found) :
    ∃ found', solve own solution' = .ok found'
      ∧ ∀ x, inside x → found.get? x = found'.get? x := by
  fun_induction solve all solution generalizing own solution' with
  | case1 => cases hsolve
  | case2 pending solution hnone =>
    cases hsolve
    have hown := nextBinding_selected h hsame
    simp only [hnone] at hown
    rw [solve_eq, hown]
    exact ⟨solution', rfl, hsame⟩
  | case3 pending solution next hsome ih =>
    have hown := nextBinding_selected h hsame
    simp only [hsome] at hown
    obtain ⟨rest, hrest, ⟨hname, htype, hnext⟩ | ⟨hname, htype, hnext⟩⟩ := hown
    · rw [solve_eq own, hnext]
      refine ih (hrest.substitute_inside hname htype) (fun x hx => ?_) hsolve
      rw [Subst.get?_insert, Subst.get?_insert, hsame x hx]
    · rw [solve_eq own, hnext, ← solve_eq rest]
      refine ih (hrest.substitute_outside hname htype) (fun x hx => ?_) hsolve
      rw [Subst.get?_insert, if_neg, hsame x hx]
      rintro rfl
      exact hname hx

end Unify

/-! ## Merging -/

namespace Subst

variable {subst subst' : Subst} {type : Ty}

/-- Bindings of some variables, over these variables again, are all that matters for them. -/
theorem apply_congr (hsame : ∀ x, inside x → subst.get? x = subst'.get? x)
    (htype : ∀ x ∈ type.occurrences, inside x) : subst.apply type = subst'.apply type := by
  rw [apply_eq_replace, apply_eq_replace]
  refine Ty.replace_congr fun x hx => ?_
  rw [apply, apply, hsame x (htype x hx)]

theorem occurrences_apply
    (hclosed : ∀ x bound, inside x → subst.get? x = some bound → ∀ y ∈ bound.occurrences, inside y)
    (htype : ∀ x ∈ type.occurrences, inside x) :
    ∀ y ∈ (subst.apply type).occurrences, inside y := by
  intro y hy
  obtain ⟨x, hx, ⟨-, rfl⟩ | ⟨bound, hbound, hy⟩⟩ := mem_occurrences_apply.1 hy
  · exact htype y hx
  · exact hclosed x bound (htype x hx) hbound y hy

theorem merge_apply_iterate (h : subst.merge.isIdempotent = true) (times : Nat) (type : Ty) :
    subst.merge.apply (subst.apply^[times] type) = subst.merge.apply type := by
  induction times generalizing type with
  | zero => rfl
  | succ times ih =>
    rw [Function.iterate_succ_apply, ih]
    exact apply_settle_apply h type

/-- Merged bindings do the same to types over variables that are bound to the same. -/
theorem merge_apply_congr (h : subst.merge.isIdempotent = true)
    (h' : subst'.merge.isIdempotent = true)
    (hsame : ∀ x, inside x → subst.get? x = subst'.get? x)
    (hclosed : ∀ x bound, inside x → subst'.get? x = some bound →
      ∀ y ∈ bound.occurrences, inside y)
    (htype : ∀ x ∈ type.occurrences, inside x) :
    subst.merge.apply type = subst'.merge.apply type := by
  have hiterate (times : Nat) : subst.apply^[times] type = subst'.apply^[times] type
      ∧ ∀ x ∈ (subst'.apply^[times] type).occurrences, inside x := by
    induction times with
    | zero => exact ⟨rfl, htype⟩
    | succ times ih =>
      rw [Function.iterate_succ_apply', Function.iterate_succ_apply', ih.1]
      exact ⟨apply_congr hsame ih.2, occurrences_apply hclosed ih.2⟩
  obtain ⟨times, htimes⟩ := apply_settle (subst'.size + 1) subst'
  have hmerged : subst'.merge.apply type = subst'.apply^[times] type := htimes type
  -- Nothing is left to replace in what the other bindings make of the type.
  have hdone : subst.merge.apply (subst'.merge.apply type) = subst'.merge.apply type := by
    refine apply_eq_self fun y hy => ?_
    have hfree := not_binds_of_mem_apply h' hy
    rw [hmerged] at hy
    unfold merge at hfree ⊢
    rw [binds_settle] at hfree ⊢
    rw [binds, hsame y ((hiterate times).2 y hy)]
    exact hfree
  calc
    subst.merge.apply type = subst.merge.apply (subst.apply^[times] type) :=
      (merge_apply_iterate h times type).symm
    _ = subst.merge.apply (subst'.merge.apply type) := by rw [(hiterate times).1, hmerged]
    _ = subst'.merge.apply type := hdone

end Subst

/-! ## Solutions -/

/-- Equations over some variables are solved alike alone and together with other equations. -/
theorem unify_selected {own all : List Constraint} (h : Selects inside own all) {whole : Subst}
    (hwhole : unify all = .ok whole) :
    ∃ spot, unify own = .ok spot
      ∧ ∀ type : Ty, (∀ x ∈ type.occurrences, inside x) → spot.apply type = whole.apply type := by
  obtain ⟨found, hfound, rfl⟩ := unify_eq_ok.1 hwhole
  obtain ⟨alone, halone, hsame⟩ := solve_selected h (fun _ _ => rfl) hfound
  refine ⟨alone.merge, unify_eq_ok.2 ⟨alone, halone, rfl⟩, fun type htype => ?_⟩
  have hspec := Progress.of_solve halone
  refine (Subst.merge_apply_congr (Progress.of_solve hfound).merge_isMostGeneral.isIdempotent
    hspec.merge_isMostGeneral.isIdempotent hsame (fun x bound _ hbound y hy => ?_) htype).symm
  exact h.within y ((hspec.entries_within _ (Subst.mem_entries_of_get? hbound)).2 y hy)

end WhileLang
