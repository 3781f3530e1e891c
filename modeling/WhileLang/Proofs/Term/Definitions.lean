import WhileLang.Proofs.Term.Translation
import WhileLang.Proofs.Ty.Instances

/-!
# Definitions

A program is one definition after the other around the term of its entry point.  Each definition
is solved on the spot, before the walk goes on with the term behind it.

Main definitions:

- Functions {lit}`Inference.defined` and {lit}`Inference.next`: what a definition adds, and what its
  solution adds.
- Predicate {lit}`Program.ReadyFor`: functions are defined after those they call.

Main results:

- Theorem {lit}`Term.infer_letIn_ok`: the walk over one definition.
- Theorem {lit}`Program.inferTypes_eq_ok`: what types are inferred from.
-/

namespace WhileLang

/-! ## One definition -/

namespace Inference

/-- The inference within a definition, before the term that is defined. -/
def withName (before : Inference) (name : TermVar) : Inference :=
  { before with env := (before.within.env.variableType name).2 }

/-- The type of a name within its own definition. -/
def recursiveType (before : Inference) (name : TermVar) : Ty :=
  (before.within.env.variableType name).1

/-- The equations of a definition, which end with that between the name and its term. -/
def defined (before : Inference) (name : TermVar) (solved : Inference) : Inference :=
  solved.withEnv (·.constrain (before.recursiveType name) (before.withName name).nodeType)

/-- The inference after a definition was solved. -/
def next (before : Inference) (name : TermVar) (solved : Inference) (solution : Subst) :
    Inference :=
  (before.defined name solved).define name.name (solution.apply (before.withName name).nodeType)
    before.env.subterms.size solution

end Inference

/-- The walk over a definition solves it, and then goes on with the term behind it. -/
theorem Term.infer_letIn {name : TermVar} {bound : Term} {before solved : Inference}
    (hbound : bound.infer (before.withName name)
      = (.ok (before.withName name).nodeType, solved)) (body : Term) :
    (letIn name bound body).infer before =
      match (before.defined name solved).env.solveFrom before.env.constraints.size with
      | .error error => (.error error, before.defined name solved)
      | .ok solution =>
        match body.infer (before.next name solved solution) with
        | (.error error, inside) => (.error error, inside)
        | (.ok bodyType, inside) => (.ok before.nodeType, before.close (letIn name bound body)
            (inside.withEnv (·.constrain before.nodeType bodyType))) := by
  simp only [Inference.withName, Inference.within, TypeEnv.newNode, TypeEnv.fresh] at hbound
  rw [infer]
  simp only [TypeEnv.newNode, TypeEnv.fresh]
  rw [hbound]
  rfl

/-- A walk over a definition that ends well has solved it, and went on with the term behind it. -/
theorem Term.infer_letIn_ok {name : TermVar} {bound body : Term} {before solved after : Inference}
    {type : Ty} (hbound : bound.infer (before.withName name)
      = (.ok (before.withName name).nodeType, solved))
    (h : (letIn name bound body).infer before = (.ok type, after)) :
    ∃ solution bodyType inside,
      (before.defined name solved).env.solveFrom before.env.constraints.size = .ok solution
        ∧ body.infer (before.next name solved solution) = (.ok bodyType, inside)
        ∧ type = before.nodeType
        ∧ after = before.close (letIn name bound body)
            (inside.withEnv (·.constrain before.nodeType bodyType)) := by
  rw [infer_letIn hbound] at h
  split at h
  · cases h
  · rename_i solution hsolution
    split at h
    · cases h
    · rename_i bodyType inside hbody
      cases h
      exact ⟨solution, bodyType, inside, hsolution, hbody, rfl, rfl⟩

/-! ## Solutions -/

/-- The types that an assignment gives to the variables of an environment. -/
def TypeEnv.assigned (env : TypeEnv) (assignment : String → Ty) (var : TermVar) : Ty :=
  ((env.varTypes.lookup var).getD default).replace assignment

theorem TypeEnv.agrees_assigned (env : TypeEnv) (assignment : String → Ty) :
    env.Agrees assignment (env.assigned assignment) := by
  intro var type hlookup
  rw [assigned, hlookup]
  rfl

/-- Equations are solved from a place on by those that were added since. -/
theorem Inference.solveFrom_of_append (before : Inference) {after : Inference}
    {constraints : List Constraint}
    (h : after.env.constraints.toList = before.env.constraints.toList ++ constraints) :
    after.env.solveFrom before.env.constraints.size = unify constraints := by
  rw [TypeEnv.solveFrom, h, ← Array.length_toList, List.drop_left]

/-! ## All definitions -/

namespace Program

variable {program : Program}

/-- Functions can be defined in an order if all that they call is known by then. -/
def ReadyFor (program : Program) (known : String → Prop) (names : List String) : Prop :=
  ∀ before name after, names = before ++ name :: after → ∀ callee, program.Calls name callee →
    callee ≠ name → callee ∈ before ∨ known callee

theorem defineAll_cons_eq_ok {main whole : Term} {name : String} {names : List String} :
    program.defineAll main (name :: names) = .ok whole ↔
      ∃ body function term, program.defineAll main names = .ok body
        ∧ program.function? name = some function ∧ function.toTerm program = .ok term
        ∧ whole = .letIn (.global name) term body := by
  simp only [defineAll, define, bind_eq_ok, effective_eq_ok, pure, Except.pure, Except.ok.injEq,
    eq_comm (a := whole)]
  constructor
  · rintro ⟨body, hbody, function, hfunction, term, hterm, h⟩
    exact ⟨body, function, term, hbody, hfunction, hterm, h⟩
  · rintro ⟨body, function, term, hbody, hfunction, hterm, h⟩
    exact ⟨body, hbody, function, hfunction, term, hterm, h⟩

theorem toTerm_eq_ok {term : ProgramTerm} (h : program.toTerm = .ok term) :
    ∃ main, program.function? entryPoint = some main ∧ main.toTerm program = .ok term.main
      ∧ program.defineAll term.main program.bindingOrder = .ok term.whole
      ∧ term.order = program.bindingOrder := by
  simp only [toTerm, bind_eq_ok, effective_eq_ok, pure, Except.pure, Except.ok.injEq] at h
  obtain ⟨main, hmain, mainTerm, hterm, whole, hwhole, rfl⟩ := h
  exact ⟨main, hmain, hterm, hwhole, rfl⟩

theorem inferTypes_eq_ok {types : ProgramTypes} (h : program.inferTypes = .ok types) :
    ∃ term type after solution row, program.toTerm = .ok term
      ∧ term.whole.infer .empty = (.ok type, after) ∧ after.env.solve = .ok solution
      ∧ after.env.subterms[after.env.subterms.size - 1 - term.order.length]? = some row
      ∧ types.main = after.env.report entryPoint (solution.apply row.type) row.first
          (after.env.subterms.size - 1 - term.order.length + 1) solution := by
  simp only [inferTypes, bind_eq_ok] at h
  obtain ⟨term, hterm, type, hinfer, solution, hsolution, h⟩ := h
  cases hrow : (term.whole.infer .empty).2.env.subterms[
      (term.whole.infer .empty).2.env.subterms.size - 1 - term.order.length]? with
  | none => simp [hrow] at h
  | some row =>
    simp only [hrow, pure, Except.pure, Except.ok.injEq] at h
    exact ⟨term, type, _, solution, row, hterm, Prod.ext hinfer rfl, hsolution, hrow, h ▸ rfl⟩

theorem functions_of_inferTypes {types : ProgramTypes} (h : program.inferTypes = .ok types)
    {term : ProgramTerm} (hterm : program.toTerm = .ok term) {type : Ty} {after : Inference}
    (hinfer : term.whole.infer .empty = (.ok type, after)) : types.functions = after.reports := by
  simp only [inferTypes, hterm, hinfer, bind_eq_ok, Except.ok.injEq, exists_eq_left'] at h
  obtain ⟨solution, -, h⟩ := h
  cases hrow : after.env.subterms[after.env.subterms.size - 1 - term.order.length]? with
  | none => simp [hrow] at h
  | some row =>
    simp only [hrow, pure, Except.pure, Except.ok.injEq] at h
    rw [← h]

end Program

end WhileLang
