import WhileLang.Proofs.Syntax.Names

/-!
# Calls in syntax trees

The calls that are written in a tree, each with its arguments.

Main definitions:

- Functions {lit}`Expr.calls`, {lit}`Stmt.calls` and {lit}`FunctionDef.calls`.
- Relation {lit}`Program.CallsWith`: the effective definition of a name has a call with some
  arguments.
-/

namespace WhileLang

/-- The calls in an expression, each with its arguments, a call before those in its arguments. -/
def Expr.calls : Expr → List (String × List Expr)
  | .literal _ => []
  | .var _ => []
  | .math _ left right => left.calls ++ right.calls
  | .compare _ left right => left.calls ++ right.calls
  | .logic _ left right => left.calls ++ right.calls
  | .not operand => operand.calls
  | .call name args => (name, args) :: callsOfArgs args
where
  /-- The calls in an argument list. -/
  callsOfArgs : List Expr → List (String × List Expr)
    | [] => []
    | arg :: args => arg.calls ++ callsOfArgs args

/-- The calls in a statement. -/
def Stmt.calls : Stmt → List (String × List Expr)
  | .assign _ value => value.calls
  | .seq first second => first.calls ++ second.calls
  | .ifThen condition body => condition.calls ++ body.calls
  | .ifElse condition body alternative => condition.calls ++ (body.calls ++ alternative.calls)
  | .loop condition body => condition.calls ++ body.calls

/-- The calls in a definition, those of the body before those of the result. -/
def FunctionDef.calls (function : FunctionDef) : List (String × List Expr) :=
  function.body.elim [] Stmt.calls ++ function.result.calls

theorem Expr.mem_callsOfArgs {call : String × List Expr} {args : List Expr} :
    call ∈ Expr.calls.callsOfArgs args ↔ ∃ arg ∈ args, call ∈ arg.calls := by
  induction args with
  | nil => simp [calls.callsOfArgs]
  | cons arg args ih => simp [calls.callsOfArgs, ih]

/-- The functions that are called are those of the calls. -/
theorem Expr.callees_eq (expr : Expr) : expr.callees = expr.calls.map Prod.fst := by
  induction expr with
  | literal | var => rfl
  | math op left right ihl ihr | compare op left right ihl ihr | logic op left right ihl ihr =>
    rw [callees, calls, ihl, ihr, List.map_append]
  | not operand ih => exact ih
  | call name args ih =>
    have hargs : callees.calleesOfArgs args = (calls.callsOfArgs args).map Prod.fst := by
      induction args with
      | nil => rfl
      | cons arg args ihargs =>
        rw [List.forall_mem_cons] at ih
        rw [callees.calleesOfArgs, calls.callsOfArgs, ih.1, ihargs ih.2, List.map_append]
    rw [callees, calls, hargs, List.map_cons]

theorem Stmt.callees_eq (stmt : Stmt) : stmt.callees = stmt.calls.map Prod.fst := by
  induction stmt with
  | assign name value => exact value.callees_eq
  | seq first second ihf ihs => rw [callees, calls, ihf, ihs, List.map_append]
  | ifThen condition body ih | loop condition body ih =>
    rw [callees, calls, condition.callees_eq, ih, List.map_append]
  | ifElse condition body alternative ihb iha =>
    rw [callees, calls, condition.callees_eq, ihb, iha, List.map_append, List.map_append]

theorem FunctionDef.callees_eq (function : FunctionDef) :
    function.callees = function.calls.map Prod.fst := by
  unfold callees calls
  rw [function.result.callees_eq, List.map_append]
  cases function.body with
  | none => rfl
  | some body => rw [Option.elim_some, Option.elim_some, body.callees_eq]

/-- The effective definition of a name has a call of a function with some arguments. -/
def Program.CallsWith (program : Program) (caller callee : String) (args : List Expr) : Prop :=
  ∃ function, program.function? caller = some function ∧ (callee, args) ∈ function.calls

end WhileLang
