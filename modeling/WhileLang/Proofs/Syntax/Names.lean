import WhileLang.Syntax.Lookup
import WhileLang.Proofs.Token.Identifier

/-!
# Names in syntax trees

The names that are written in a tree: variables, called functions, defined functions and parameters.

Main definitions:

- Functions {lit}`Expr.names`, {lit}`Stmt.names`, {lit}`FunctionDef.names` and
  {lit}`Program.names`.
- Predicate {lit}`IsNamed`: all names of a list are identifiers.
- Relation {lit}`Program.Calls`: the effective definition of a name calls another one.
-/

namespace WhileLang

/-! ## Induction on expressions -/

/-- Induction on expressions, with a hypothesis for every argument of a call. -/
@[elab_as_elim, induction_eliminator]
theorem Expr.induction {motive : Expr → Prop} (literal : ∀ value, motive (.literal value))
    (var : ∀ name, motive (.var name))
    (math : ∀ op left right, motive left → motive right → motive (.math op left right))
    (compare : ∀ op left right, motive left → motive right → motive (.compare op left right))
    (logic : ∀ op left right, motive left → motive right → motive (.logic op left right))
    (not : ∀ operand, motive operand → motive (.not operand))
    (call : ∀ name args, (∀ arg ∈ args, motive arg) → motive (.call name args)) (expr : Expr) :
    motive expr :=
  match expr with
  | .literal value => literal value
  | .var name => var name
  | .math op left right =>
    math op left right (Expr.induction literal var math compare logic not call left)
      (Expr.induction literal var math compare logic not call right)
  | .compare op left right =>
    compare op left right (Expr.induction literal var math compare logic not call left)
      (Expr.induction literal var math compare logic not call right)
  | .logic op left right =>
    logic op left right (Expr.induction literal var math compare logic not call left)
      (Expr.induction literal var math compare logic not call right)
  | .not operand => not operand (Expr.induction literal var math compare logic not call operand)
  | .call name args =>
    call name args fun arg _ => Expr.induction literal var math compare logic not call arg

/-! ## The names of a tree -/

/-- Names of variables and called functions in an expression. -/
def Expr.names : Expr → List String
  | .literal _ => []
  | .var name => [name]
  | .math _ left right => left.names ++ right.names
  | .compare _ left right => left.names ++ right.names
  | .logic _ left right => left.names ++ right.names
  | .not operand => operand.names
  | .call name args => name :: namesOfArgs args
where
  /-- Names in an argument list. -/
  namesOfArgs : List Expr → List String
    | [] => []
    | arg :: args => arg.names ++ namesOfArgs args

theorem Expr.mem_namesOfArgs {name : String} {args : List Expr} :
    name ∈ Expr.names.namesOfArgs args ↔ ∃ arg ∈ args, name ∈ arg.names := by
  induction args with
  | nil => simp [names.namesOfArgs]
  | cons arg args ih => simp [names.namesOfArgs, ih]

theorem Expr.mem_calleesOfArgs {name : String} {args : List Expr} :
    name ∈ Expr.callees.calleesOfArgs args ↔ ∃ arg ∈ args, name ∈ arg.callees := by
  induction args with
  | nil => simp [callees.calleesOfArgs]
  | cons arg args ih => simp [callees.calleesOfArgs, ih]

/-- Names in a statement. -/
def Stmt.names : Stmt → List String
  | .assign name value => name :: value.names
  | .seq first second => first.names ++ second.names
  | .ifThen condition body => condition.names ++ body.names
  | .ifElse condition body alternative => condition.names ++ (body.names ++ alternative.names)
  | .loop condition body => condition.names ++ body.names

/-- Names in a definition: its own, those of its parameters, and those in its body and result. -/
def FunctionDef.names (function : FunctionDef) : List String :=
  function.name :: (function.params ++ (function.body.elim [] Stmt.names ++ function.result.names))

/-- A called function is one of the names. -/
theorem Expr.mem_names_of_mem_callees {name : String} {expr : Expr} (h : name ∈ expr.callees) :
    name ∈ expr.names := by
  induction expr with
  | literal value => exact h
  | var other => cases h
  | math op left right ihl ihr | compare op left right ihl ihr | logic op left right ihl ihr =>
    simp only [callees, List.mem_append] at h
    exact List.mem_append.2 (h.imp ihl ihr)
  | not operand ih => exact ih h
  | call other args ih =>
    simp only [callees, List.mem_cons, mem_calleesOfArgs] at h
    simp only [names, List.mem_cons, mem_namesOfArgs]
    exact h.imp_right fun ⟨arg, hmem, hname⟩ => ⟨arg, hmem, ih arg hmem hname⟩

theorem Stmt.mem_names_of_mem_callees {name : String} {stmt : Stmt} (h : name ∈ stmt.callees) :
    name ∈ stmt.names := by
  induction stmt with
  | assign other value => exact List.mem_cons_of_mem _ (Expr.mem_names_of_mem_callees h)
  | seq first second ihf ihs => exact List.mem_append.2 ((List.mem_append.1 h).imp ihf ihs)
  | ifThen condition body ih | loop condition body ih =>
    exact List.mem_append.2 ((List.mem_append.1 h).imp Expr.mem_names_of_mem_callees ih)
  | ifElse condition body alternative ihb iha =>
    simp only [callees, List.mem_append] at h
    simp only [names, List.mem_append]
    exact h.imp Expr.mem_names_of_mem_callees (Or.imp ihb iha)

theorem FunctionDef.mem_names_of_mem_callees {name : String} {function : FunctionDef}
    (h : name ∈ function.callees) : name ∈ function.names := by
  simp only [names, List.mem_cons, List.mem_append]
  refine Or.inr (Or.inr ((List.mem_append.1 h).imp (fun h => ?_) Expr.mem_names_of_mem_callees))
  cases hbody : function.body with
  | none => simp [hbody] at h
  | some body =>
    rw [hbody] at h
    exact Stmt.mem_names_of_mem_callees h

/-- Names in the definitions of a program. -/
def Program.names (program : Program) : List String :=
  program.functions.flatMap FunctionDef.names

/-- All names are identifiers. -/
def IsNamed (names : List String) : Prop :=
  ∀ name ∈ names, isIdentifier name = true

instance (names : List String) : Decidable (IsNamed names) :=
  inferInstanceAs (Decidable (∀ name ∈ names, isIdentifier name = true))

theorem isNamed_append {first second : List String} :
    IsNamed (first ++ second) ↔ IsNamed first ∧ IsNamed second := by
  simp only [IsNamed, List.mem_append, or_imp, forall_and]

theorem isNamed_cons {name : String} {names : List String} :
    IsNamed (name :: names) ↔ isIdentifier name = true ∧ IsNamed names :=
  List.forall_mem_cons

/-! ## Calls between functions -/

namespace Program

variable {program : Program}

/-- The effective definition of a name calls a function. -/
def Calls (program : Program) (caller callee : String) : Prop :=
  ∃ function, program.function? caller = some function ∧ callee ∈ function.callees

theorem mem_functions_of_function? {name : String} {function : FunctionDef}
    (h : program.function? name = some function) :
    function ∈ program.functions ∧ function.name = name := by
  unfold function? at h
  rw [List.findRev?_eq_find?_reverse] at h
  have hmem := List.mem_of_find?_eq_some h
  have hname := List.find?_some h
  exact ⟨List.mem_reverse.1 hmem, by simpa using hname⟩

theorem effective_eq_ok {name : String} {function : FunctionDef} :
    program.effective name = .ok function ↔ program.function? name = some function := by
  unfold effective
  cases program.function? name with
  | none => simp
  | some other => simp

/-- The effective definitions of a program have no names but those of the program. -/
theorem isNamed_of_function? (h : IsNamed program.names) {name : String} {function : FunctionDef}
    (hfunction : program.function? name = some function) : IsNamed function.names := by
  intro other hother
  refine h other (List.mem_flatMap.2 ⟨function, ?_, hother⟩)
  exact (mem_functions_of_function? hfunction).1

theorem isNamed_callees (h : IsNamed program.names) {name : String} {function : FunctionDef}
    (hfunction : program.function? name = some function) : IsNamed function.callees :=
  fun callee hmem =>
    isNamed_of_function? h hfunction callee (FunctionDef.mem_names_of_mem_callees hmem)

end Program

end WhileLang
