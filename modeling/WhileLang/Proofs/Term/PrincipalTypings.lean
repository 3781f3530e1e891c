import WhileLang.Proofs.Term.Exactness

/-!
# Principal typings of terms without definitions

The walk over a term without definitions always ends with a type.  The equations it demands can be
solved if and only if the term has a typing: types of its variables and a type of the term.  The
solution then gives such a typing, from which every other one comes by a substitution.

Main definitions:

- Predicate {lit}`Term.IsLetFree`: a term without definitions.
- Structure {lit}`Term.IsPrincipalTyping`: a typing from which the others come by substitutions.

Main results:

- Theorem {lit}`Subst.exists_apply_eq_replace`: an assignment is a substitution on finitely many
  variables.
- Theorem {lit}`Term.infer_isPrincipalTyping`: inference is sound, complete and principal.
-/

namespace WhileLang

/-! ## Substitutions and assignments -/

/-- A substitution can do to types over finitely many variables what an assignment does to them. -/
theorem Subst.exists_apply_eq_replace (assignment : String → Ty) (names : List String) :
    ∃ subst : Subst, ∀ type : Ty, type.occurrences ⊆ names →
      subst.apply type = type.replace assignment := by
  have hlookup {name : String} (hmem : name ∈ names) :
      (names.map fun name => (name, assignment name)).lookup name = some (assignment name) := by
    induction names with
    | nil => cases hmem
    | cons first rest ih =>
      rw [List.map_cons, List.lookup_cons]
      by_cases heq : name = first
      · simp [heq]
      · rw [beq_eq_false_iff_ne.2 heq]
        exact ih ((List.mem_cons.1 hmem).resolve_left heq)
  refine ⟨⟨names.map fun name => (name, assignment name)⟩, fun type hnames => ?_⟩
  rw [Subst.apply_eq_replace]
  refine Ty.replace_congr fun name hmem => ?_
  simp [Subst.apply, Subst.get?, hlookup (hnames hmem)]

/-! ## Terms without definitions -/

namespace Term

/-- No part of a term is a definition. -/
def IsLetFree : Term → Prop
  | .var _ | .literal _ => True
  | .app function argument => function.IsLetFree ∧ argument.IsLetFree
  | .abs _ body => body.IsLetFree
  | .letIn .. => False

variable {term : Term}

theorem IsOver.mono {names larger : List String} (h : term.IsOver names) (hsub : names ⊆ larger) :
    term.IsOver larger := by
  induction term with
  | var leaf => exact fun hscope hbuiltin hscheme => hsub (h hscope hbuiltin hscheme)
  | literal => trivial
  | app function argument ihf iha => exact ⟨ihf h.1, iha h.2⟩
  | abs param body ih => exact ih h
  | letIn => exact h

theorem IsLetFree.exists_isOver (h : term.IsLetFree) : ∃ names, term.IsOver names := by
  induction term with
  | var leaf => exact ⟨[leaf.name], fun _ _ _ => List.mem_singleton_self _⟩
  | literal => exact ⟨[], trivial⟩
  | app function argument ihf iha =>
    obtain ⟨names, hfunction⟩ := ihf h.1
    obtain ⟨others, hargument⟩ := iha h.2
    exact ⟨names ++ others, hfunction.mono (List.subset_append_left _ _),
      hargument.mono (List.subset_append_right _ _)⟩
  | abs param body ih => exact ih h
  | letIn => exact h.elim

/-! ## Principal typings -/

/--
A type and a table of the types of variables are a typing of a term in which no function is known,
and every typing comes from this one by a substitution.
-/
structure IsPrincipalTyping (term : Term) (table : List (TermVar × Ty)) (type : Ty) : Prop where
  typed {varTypes : TermVar → Ty} :
    (∀ var found, table.lookup var = some found → varTypes var = found) →
      term.HasType (fun _ => none) varTypes type
  general {varTypes : TermVar → Ty} {given : Ty} : term.HasType (fun _ => none) varTypes given →
    ∃ subst : Subst, given = subst.apply type
      ∧ ∀ var found, table.lookup var = some found → varTypes var = subst.apply found

/-- The solved equations of a walk give a principal typing. -/
theorem isPrincipalTyping_of_determines {after : TypeEnv} {type : Ty}
    (h : TypeEnv.Determines .empty after after.constraints.toList
      (term.HasType fun _ => none) type) {solution : Subst}
    (hsolution : after.solve = .ok solution) :
    term.IsPrincipalTyping (after.varTypes.map fun entry => (entry.1, solution.apply entry.2))
      (solution.apply type) where
  typed := by
    intro varTypes htable
    rw [Subst.apply_eq_replace]
    refine h.sound (unify_solves hsolution) fun var found hlookup => ?_
    rw [← Subst.apply_eq_replace]
    refine htable var _ ?_
    rw [Subst.lookup_map_types, hlookup, Option.map_some]
  general := by
    intro varTypes given htyped
    have hempty : TypeEnv.empty.Agrees .var varTypes := fun _ _ hlookup => nomatch hlookup
    obtain ⟨assignment, -, hsolves, hagrees, rfl⟩ := h.complete hempty htyped
    obtain ⟨subst, hsubst⟩ := Subst.exists_apply_eq_replace assignment
      ((solution.apply type).occurrences
        ++ after.varTypes.flatMap fun entry => (solution.apply entry.2).occurrences)
    refine ⟨subst, ?_, ?_⟩
    · rw [hsubst _ (List.subset_append_left _ _), replace_apply_of_solves hsolution hsolves]
    · intro var found hlookup
      rw [Subst.lookup_map_types] at hlookup
      obtain ⟨raw, hraw, rfl⟩ := Option.map_eq_some_iff.1 hlookup
      have hentry : (var, raw) ∈ after.varTypes := by
        obtain ⟨before, behind, heq, -⟩ := List.lookup_eq_some_iff.1 hraw
        simp [heq]
      rw [hsubst, replace_apply_of_solves hsolution hsolves]
      · exact hagrees var raw hraw
      · exact fun name hmem =>
          List.mem_append_right _ (List.mem_flatMap.2 ⟨(var, raw), hentry, hmem⟩)

/--
Inference is sound, complete and principal on terms without definitions: it always ends with a type,
its equations can be solved exactly if the term has a typing, and the solution is a principal one.
-/
theorem infer_isPrincipalTyping (h : term.IsLetFree) :
    ∃ type after, term.infer .empty = (.ok type, after)
      ∧ ((∃ solution, after.env.solve = .ok solution) ↔
          ∃ varTypes given, term.HasType (fun _ => none) varTypes given)
      ∧ ∀ solution, after.env.solve = .ok solution →
          term.IsPrincipalTyping
            (after.env.varTypes.map fun entry => (entry.1, solution.apply entry.2))
            (solution.apply type) := by
  obtain ⟨names, hover⟩ := h.exists_isOver
  have hscoped : Inference.empty.env.IsScoped := .empty
  obtain ⟨after, hinferred⟩ := infer_exact hover hscoped
  obtain ⟨constraints, hdetermines⟩ := hinferred.determines
  obtain rfl : after.env.constraints.toList = constraints := hdetermines.constraints_eq
  have hprincipal {solution : Subst} (hsolution : after.env.solve = .ok solution) :=
    isPrincipalTyping_of_determines hdetermines hsolution
  refine ⟨_, after, hinferred.infer_eq, ⟨?_, ?_⟩, fun solution => hprincipal⟩
  · rintro ⟨solution, hsolution⟩
    refine ⟨fun var => (((after.env.varTypes.map fun entry =>
      (entry.1, solution.apply entry.2)).lookup var).getD default), _,
      (hprincipal hsolution).typed fun var found hlookup => ?_⟩
    rw [hlookup, Option.getD_some]
  · rintro ⟨varTypes, given, htyped⟩
    cases hsolve : after.env.solve with
    | ok solution => exact ⟨solution, rfl⟩
    | error error =>
      exact absurd htyped (hdetermines.not_judged .empty hsolve varTypes given)

/-- A function that adds one to its parameter. -/
def increment : Term :=
  .abs (.ofFunction "x" "f") (.binary "+" (.var (.ofFunction "x" "f")) (.literal (.int 1)))

/-- The increment is a function on integers, and so is its only typing. -/
theorem infer_isPrincipalTyping_increment :
    increment.IsLetFree ∧ ∃ type after solution, increment.infer .empty = (.ok type, after)
      ∧ after.env.solve = .ok solution ∧ solution.apply type = .arrow .int .int
      ∧ increment.IsPrincipalTyping
          (after.env.varTypes.map fun entry => (entry.1, solution.apply entry.2))
          (.arrow .int .int) := by
  have hfree : increment.IsLetFree := ⟨⟨trivial, trivial⟩, trivial⟩
  obtain ⟨type, after, hinfer, -, hprincipal⟩ := infer_isPrincipalTyping hfree
  have hnode : (increment.infer .empty).1.toOption = some (.var "a0") := by decide +kernel
  have hsolved : ((increment.infer .empty).2.env.solve.map (·.apply (.var "a0"))).toOption
      = some (.arrow .int .int) := by decide +kernel
  rw [hinfer] at hnode hsolved
  obtain rfl : type = .var "a0" := by simpa [Except.toOption] using hnode
  cases hsolution : after.env.solve with
  | error error => simp [hsolution, Except.map, Except.toOption] at hsolved
  | ok solution =>
    have htype : solution.apply (.var "a0") = .arrow .int .int := by
      simpa [hsolution, Except.map, Except.toOption] using hsolved
    refine ⟨hfree, .var "a0", after, solution, hinfer, hsolution, htype, ?_⟩
    rw [← htype]
    exact hprincipal solution hsolution

end Term

end WhileLang
