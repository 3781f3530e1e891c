import WhileLang.SemanticError
import WhileLang.Ty.Subst

/-!
# Unification

Solving equations between types.  Equations are taken from the front of a list.  An equation is
dropped, taken apart, or binds a variable, which is then replaced in all equations that are left.

Main definitions:

- Function {lit}`Unify.step`: what is done with one equation.
- Predicate {lit}`Unify.Advances`: what can be done with one.
- Function {lit}`unify`: a substitution that solves all of the equations.

Main results:

- Theorems {lit}`Unify.step_replace` and {lit}`Unify.step_bind`: the parts of an equation are
  smaller, and a variable that is bound is gone.  So unification ends, although replacing a variable
  may make all equations larger.
-/

namespace WhileLang

/-- Two types that have to be equal. -/
abbrev Constraint : Type :=
  Ty × Ty

namespace Unify

/-! ## Steps -/

/-- What is done with an equation. -/
inductive Move where
  /-- Put equations in its place. -/
  | replace (parts : List Constraint)
  /-- Bind a variable to a type. -/
  | bind (name : String) (type : Ty)
deriving DecidableEq

/-- Replace a variable in an equation. -/
def substitute (name : String) (type : Ty) (constraint : Constraint) : Constraint :=
  ((Subst.single name type).apply constraint.1, (Subst.single name type).apply constraint.2)

/-- Bind a variable, unless that would make an infinite type or it is bound already. -/
def meet (name : String) (type : Ty) (solution : Subst) : Except SemanticError Move :=
  match solution.get? name with
  | some existing =>
    if existing = type then .ok (.replace [])
    else .error (.conflictingSubstitution (.var name) existing type)
  | none =>
    if type.isArrow && type.contains name then .error (.infiniteType name type)
    else .ok (.bind name type)

/-- What is done with an equation, given the bindings so far. -/
def step (left right : Ty) (solution : Subst) : Except SemanticError Move :=
  match left, right with
  | .var a, .var b => if a = b then .ok (.replace []) else meet a (.var b) solution
  | .var a, .con c => meet a (.con c) solution
  | .var a, .arrow d c => meet a (.arrow d c) solution
  | .con c, .var b => meet b (.con c) solution
  | .arrow d c, .var b => meet b (.arrow d c) solution
  | .arrow d c, .arrow d' c' => .ok (.replace [(d, d'), (c, c')])
  | .con a, .con b =>
    if a = b then .ok (.replace []) else .error (.typeMismatch (.con a) (.con b))
  | .con a, .arrow d c => .error (.typeMismatch (.con a) (.arrow d c))
  | .arrow d c, .con b => .error (.typeMismatch (.arrow d c) (.con b))

/-! ## The measure of equations -/

/-- The number of constructors and variables of a type. -/
def typeSize : Ty → Nat
  | .var _ => 1
  | .con _ => 1
  | .arrow domain codomain => typeSize domain + typeSize codomain + 1

/-- The number of constructors and variables of a list of equations. -/
def totalSize : List Constraint → Nat
  | [] => 0
  | (left, right) :: rest => typeSize left + typeSize right + totalSize rest

/-- The variables of a list of equations, at every place they occur. -/
def constraintVars (pending : List Constraint) : List String :=
  pending.flatMap fun constraint => constraint.1.occurrences ++ constraint.2.occurrences

/-- The number of different items of a list. -/
def distinct (names : List String) : Nat :=
  names.eraseDups.length

/-- An item of a list is one of its different items. -/
private theorem distinct_filter_of_mem {x : String} {xs : List String} (h : x ∈ xs) :
    distinct (xs.filter (· != x)) + 1 = distinct xs := by
  induction hn : xs.length using Nat.strongRecOn generalizing xs with
  | _ n ih =>
    match xs, h with
    | y :: ys, h =>
      unfold distinct
      by_cases hxy : y = x
      · subst hxy
        rw [List.filter_cons_of_neg (by simp), List.eraseDups_cons]
        simp [bne]
      · have hx : x ∈ ys.filter (· != y) := by
          have : x ∈ ys := by
            rcases List.mem_cons.1 h with h | h
            · exact absurd h.symm hxy
            · exact h
          exact List.mem_filter.2 ⟨this, by simpa using fun h => hxy h.symm⟩
        have hlt : (ys.filter (· != y)).length < n := by
          have := List.length_filter_le (· != y) ys
          simp only [List.length_cons] at hn
          omega
        have := ih _ hlt hx rfl
        unfold distinct at this
        rw [List.filter_cons_of_pos (by simpa using hxy), List.eraseDups_cons, List.eraseDups_cons]
        simp only [List.length_cons, Nat.add_right_cancel_iff]
        rw [List.filter_filter] at this ⊢
        simpa [bne, Bool.and_comm] using this

/-- A list has no more different items than one that has all of its items. -/
theorem distinct_le_of_subset {xs ys : List String} (h : ∀ x ∈ xs, x ∈ ys) :
    distinct xs ≤ distinct ys := by
  induction hn : xs.length using Nat.strongRecOn generalizing xs ys with
  | _ n ih =>
    match xs with
    | [] => simp [distinct]
    | x :: xs =>
      have hx : x ∈ ys := h x (by simp)
      have hlt : (xs.filter (· != x)).length < n := by
        have := List.length_filter_le (· != x) xs
        simp only [List.length_cons] at hn
        omega
      have hsub : ∀ z ∈ xs.filter (· != x), z ∈ ys.filter (· != x) := by
        intro z hz
        obtain ⟨hz, hne⟩ := List.mem_filter.1 hz
        exact List.mem_filter.2 ⟨h z (by simp [hz]), hne⟩
      have hle := ih _ hlt hsub rfl
      have := distinct_filter_of_mem hx
      have hcons : distinct (x :: xs) = distinct (xs.filter (· != x)) + 1 := by
        simp [distinct, List.eraseDups_cons, bne]
      omega

/-- A list has fewer different items than one that has all of its items and another one. -/
theorem distinct_lt_of_subset {v : String} {xs ys : List String} (h : ∀ x ∈ xs, x ∈ ys)
    (hv : v ∈ ys) (hnot : v ∉ xs) : distinct xs < distinct ys := by
  have hfilter := distinct_filter_of_mem hv
  have hsub : ∀ x ∈ xs, x ∈ ys.filter (· != v) := by
    intro x hx
    exact List.mem_filter.2 ⟨h x hx, by simpa using fun (heq : x = v) => hnot (heq ▸ hx)⟩
  have hle := distinct_le_of_subset hsub
  omega

/-! ## Steps get smaller -/

/-- Replacing a variable leaves the other variables, and those of the type put in its place. -/
private theorem mem_occurrences_single {v x : String} {type target : Ty}
    (h : x ∈ ((Subst.single v type).apply target).occurrences) :
    (x ∈ target.occurrences ∧ x ≠ v) ∨ x ∈ type.occurrences := by
  induction target with
  | var name =>
    rw [Subst.apply, Subst.get?_single] at h
    split at h
    · exact Or.inr (by simpa using h)
    · rename_i hname
      have hx : x = name := by simpa [Ty.occurrences] using h
      exact Or.inl ⟨by simp [Ty.occurrences, hx], hx ▸ hname⟩
  | con _ => simp [Subst.apply, Ty.occurrences] at h
  | arrow domain codomain ihd ihc =>
    simp only [Subst.apply, Ty.occurrences, List.mem_append] at h ⊢
    rcases h with h | h
    · rcases ihd h with ⟨hd, hne⟩ | ht
      · exact Or.inl ⟨Or.inl hd, hne⟩
      · exact Or.inr ht
    · rcases ihc h with ⟨hc, hne⟩ | ht
      · exact Or.inl ⟨Or.inr hc, hne⟩
      · exact Or.inr ht

/-- The same for a list of equations. -/
theorem mem_constraintVars_substitute {v x : String} {type : Ty} {pending : List Constraint}
    (h : x ∈ constraintVars (pending.map (substitute v type))) :
    (x ∈ constraintVars pending ∧ x ≠ v) ∨ x ∈ type.occurrences := by
  simp only [constraintVars, List.mem_flatMap, List.mem_map] at h ⊢
  obtain ⟨_, ⟨constraint, hmem, rfl⟩, hx⟩ := h
  rcases List.mem_append.1 hx with hx | hx
  · rcases mem_occurrences_single hx with ⟨hx, hne⟩ | ht
    · exact Or.inl ⟨⟨constraint, hmem, List.mem_append.2 (Or.inl hx)⟩, hne⟩
    · exact Or.inr ht
  · rcases mem_occurrences_single hx with ⟨hx, hne⟩ | ht
    · exact Or.inl ⟨⟨constraint, hmem, List.mem_append.2 (Or.inr hx)⟩, hne⟩
    · exact Or.inr ht

/-- A type is not empty. -/
theorem typeSize_pos (type : Ty) : 0 < typeSize type := by
  cases type <;> simp [typeSize]

/-- The size of two lists of equations in a row. -/
theorem totalSize_append (first second : List Constraint) :
    totalSize (first ++ second) = totalSize first + totalSize second := by
  induction first with
  | nil => simp [totalSize]
  | cons constraint rest ih =>
    obtain ⟨left, right⟩ := constraint
    simp only [List.cons_append, totalSize, ih]
    omega

/-- The variables of two lists of equations in a row. -/
theorem constraintVars_append (first second : List Constraint) :
    constraintVars (first ++ second) = constraintVars first ++ constraintVars second :=
  List.flatMap_append

/-- A variable that is met is replaced by nothing, or bound to a type without it. -/
private theorem meet_ok {v : String} {type : Ty} {solution : Subst} {move : Move}
    (hself : type.isArrow = false → v ∉ type.occurrences)
    (h : meet v type solution = .ok move) :
    move = .replace [] ∨ (move = .bind v type ∧ v ∉ type.occurrences) := by
  unfold meet at h
  split at h
  · split at h
    · cases h
      exact Or.inl rfl
    · cases h
  · split at h
    · cases h
    · rename_i hnot
      cases h
      refine Or.inr ⟨rfl, ?_⟩
      cases harrow : type.isArrow with
      | false => exact hself harrow
      | true =>
        intro hmem
        exact hnot (by simp [harrow, Ty.contains_iff.2 hmem])

/-- A move makes an equation smaller, or binds one of its variables to others of them. -/
inductive Advances (left right : Ty) : Move → Prop
  | replace {parts : List Constraint} (hsize : totalSize parts < typeSize left + typeSize right)
      (hparts : ∀ x ∈ constraintVars parts, x ∈ left.occurrences ++ right.occurrences) :
      Advances left right (.replace parts)
  | bind {v : String} {type : Ty} (hv : v ∈ left.occurrences ++ right.occurrences)
      (htype : ∀ x ∈ type.occurrences, x ∈ left.occurrences ++ right.occurrences)
      (hnot : v ∉ type.occurrences) : Advances left right (.bind v type)

/-- A step on an equation advances. -/
theorem step_advances {left right : Ty} {solution : Subst} {move : Move}
    (h : step left right solution = .ok move) : Advances left right move := by
  have hsize : totalSize [] < typeSize left + typeSize right := by
    have := typeSize_pos left
    simp only [totalSize]
    omega
  have hnothing : Advances left right (.replace []) := .replace hsize (by simp [constraintVars])
  have hmeet {v : String} {type : Ty} (hself : type.isArrow = false → v ∉ type.occurrences)
      (hv : v ∈ left.occurrences ++ right.occurrences)
      (htype : ∀ x ∈ type.occurrences, x ∈ left.occurrences ++ right.occurrences)
      (h : meet v type solution = .ok move) : Advances left right move := by
    rcases meet_ok hself h with rfl | ⟨rfl, hnot⟩
    · exact hnothing
    · exact .bind hv htype hnot
  unfold step at h
  split at h
  · split at h
    · cases h
      exact hnothing
    · rename_i a b hne
      exact hmeet (fun _ => by simpa [Ty.occurrences] using hne) (by simp [Ty.occurrences])
        (by simp [Ty.occurrences]) h
  · exact hmeet (by simp [Ty.occurrences]) (by simp [Ty.occurrences]) (by simp [Ty.occurrences]) h
  · exact hmeet (by simp [Ty.isArrow]) (by simp [Ty.occurrences])
      (fun x hx => List.mem_append.2 (Or.inr hx)) h
  · exact hmeet (by simp [Ty.occurrences]) (by simp [Ty.occurrences]) (by simp [Ty.occurrences]) h
  · exact hmeet (by simp [Ty.isArrow]) (by simp [Ty.occurrences])
      (fun x hx => List.mem_append.2 (Or.inl hx)) h
  · rename_i d c d' c'
    cases h
    refine .replace ?_ ?_
    · simp only [totalSize, typeSize]
      omega
    · intro x hx
      simp only [constraintVars, List.flatMap_cons, List.flatMap_nil, List.mem_append,
        Ty.occurrences] at hx ⊢
      grind
  · split at h
    · cases h
      exact hnothing
    · cases h
  · cases h
  · cases h

/-- The equations put in the place of an equation are smaller, and have no other variables. -/
theorem step_replace {left right : Ty} {solution : Subst} {parts : List Constraint}
    (h : step left right solution = .ok (.replace parts)) :
    totalSize parts < typeSize left + typeSize right
      ∧ ∀ x ∈ constraintVars parts, x ∈ left.occurrences ++ right.occurrences := by
  cases step_advances h with
  | replace hsize hparts => exact ⟨hsize, hparts⟩

/-- A variable of an equation is bound to a type of the other variables in it. -/
theorem step_bind {left right : Ty} {solution : Subst} {v : String} {type : Ty}
    (h : step left right solution = .ok (.bind v type)) :
    v ∈ left.occurrences ++ right.occurrences
      ∧ (∀ x ∈ type.occurrences, x ∈ left.occurrences ++ right.occurrences)
      ∧ v ∉ type.occurrences := by
  cases step_advances h with
  | bind hv htype hnot => exact ⟨hv, htype, hnot⟩

/-! ## Unification -/

/-- A binding that an equation asks for, with the equations behind that one. -/
structure Binding where
  name : String
  type : Ty
  rest : List Constraint

/-- Work off equations up to the first one that binds a variable. -/
def nextBinding (pending : List Constraint) (solution : Subst) :
    Except SemanticError (Option Binding) :=
  match pending with
  | [] => .ok none
  | (left, right) :: rest =>
    match _stepped : step left right solution with
    | .error error => .error error
    | .ok (.replace parts) => nextBinding (parts ++ rest) solution
    | .ok (.bind name type) => .ok (some ⟨name, type, rest⟩)
termination_by totalSize pending
decreasing_by
  rw [totalSize_append]
  have := (step_replace _stepped).1
  simp only [totalSize]
  omega

/-- The first equation is worked off by one step. -/
theorem nextBinding_cons (left right : Ty) (rest : List Constraint) (solution : Subst) :
    nextBinding ((left, right) :: rest) solution =
      match step left right solution with
      | .error error => .error error
      | .ok (.replace parts) => nextBinding (parts ++ rest) solution
      | .ok (.bind name type) => .ok (some ⟨name, type, rest⟩) := by
  rw [nextBinding]
  split
  · next h => rw [h]
  · next h => rw [h]
  · next h => rw [h]

/-- A variable that is bound occurs in the equations, and the bound type does not contain it. -/
theorem nextBinding_some {pending : List Constraint} {solution : Subst} {next : Binding}
    (h : nextBinding pending solution = .ok (some next)) :
    next.name ∈ constraintVars pending
      ∧ (∀ x ∈ next.type.occurrences ++ constraintVars next.rest, x ∈ constraintVars pending)
      ∧ next.name ∉ next.type.occurrences := by
  fun_induction nextBinding pending solution with
  | case1 => cases h
  | case2 => cases h
  | case3 left right rest parts stepped ih =>
    obtain ⟨hname, hsub, hnot⟩ := ih h
    have hmem : ∀ x ∈ constraintVars (parts ++ rest), x ∈ constraintVars ((left, right) :: rest) := by
      intro x hx
      rw [constraintVars_append] at hx
      simp only [constraintVars, List.flatMap_cons]
      rcases List.mem_append.1 hx with hx | hx
      · exact List.mem_append.2 (Or.inl ((step_replace stepped).2 x hx))
      · exact List.mem_append.2 (Or.inr hx)
    exact ⟨hmem _ hname, fun x hx => hmem x (hsub x hx), hnot⟩
  | case4 left right rest name type stepped =>
    cases h
    obtain ⟨hname, hsub, hnot⟩ := step_bind stepped
    simp only [constraintVars, List.flatMap_cons]
    refine ⟨List.mem_append.2 (Or.inl hname), ?_, hnot⟩
    intro x hx
    rcases List.mem_append.1 hx with hx | hx
    · exact List.mem_append.2 (Or.inl (hsub x hx))
    · exact List.mem_append.2 (Or.inr hx)

/-- Binding a variable leaves fewer different ones. -/
private theorem binding_decreases {pending : List Constraint} {solution : Subst} {next : Binding}
    (h : nextBinding pending solution = .ok (some next)) :
    distinct (constraintVars (next.rest.map (substitute next.name next.type)))
      < distinct (constraintVars pending) := by
  obtain ⟨hname, hsub, hnot⟩ := nextBinding_some h
  refine distinct_lt_of_subset ?_ hname ?_
  · intro x hx
    rcases mem_constraintVars_substitute hx with ⟨hx, _⟩ | hx
    · exact hsub x (List.mem_append.2 (Or.inr hx))
    · exact hsub x (List.mem_append.2 (Or.inl hx))
  · intro hmem
    rcases mem_constraintVars_substitute hmem with ⟨_, hne⟩ | hmem
    · exact hne rfl
    · exact hnot hmem

/-- Work off all equations, starting from bindings that were found before. -/
def solve (pending : List Constraint) (solution : Subst) : Except SemanticError Subst :=
  match _found : nextBinding pending solution with
  | .error error => .error error
  | .ok none => .ok solution
  | .ok (some next) =>
    solve (next.rest.map (substitute next.name next.type))
      (solution.insert next.name next.type)
termination_by distinct (constraintVars pending)
decreasing_by exact binding_decreases _found

/-- Working off equations goes on behind each binding that is found. -/
theorem solve_eq (pending : List Constraint) (solution : Subst) :
    solve pending solution =
      match nextBinding pending solution with
      | .error error => .error error
      | .ok none => .ok solution
      | .ok (some next) => solve (next.rest.map (substitute next.name next.type))
          (solution.insert next.name next.type) := by
  rw [solve]
  split
  · next h => rw [h]
  · next h => rw [h]
  · next h => rw [h]

end Unify

/-- Check that a substitution makes both sides of all equations equal. -/
def checkSolution (subst : Subst) : List Constraint → Except SemanticError Unit
  | [] => .ok ()
  | (left, right) :: rest =>
    if subst.apply left = subst.apply right then checkSolution subst rest
    else .error (.inconsistentSolution (subst.apply left) (subst.apply right))

/--
Solve equations between types.  The bindings found are merged into each other, and the result is
checked against the equations.
-/
def unify (constraints : List Constraint) : Except SemanticError Subst :=
  match Unify.solve constraints .empty with
  | .error error => .error error
  | .ok solution =>
    match checkSolution solution.merge constraints with
    | .error error => .error error
    | .ok () => .ok solution.merge

end WhileLang
