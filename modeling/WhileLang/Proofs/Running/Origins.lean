import Mathlib.Logic.Relation
import WhileLang.Proofs.Running.FrameDiscipline
import WhileLang.Proofs.Syntax.Calls
import WhileLang.Running.Execution

/-!
# Where failures come from

An evaluation works on an activity, which comes to further ones: operands, parts of statements,
calls.  A failure is raised by one activity, and those before it only pass it on.  So what holds of
all activities that an evaluation comes to holds where a failure is raised.

Main definitions:

- Types {lit}`Task` and {lit}`Activity`: something to evaluate, and the stack it is evaluated in.
- Relation {lit}`Activity.ComesTo`: an activity comes to another one.
- Relation {lit}`Activity.Raises`: an activity fails, although none that it comes to does.
- Structure {lit}`Activity.BelongsTo`: what holds of all activities of a run.

Main results:

- Theorem {lit}`Activity.Fails.exists_origin`: every failure is raised by an activity that the
  evaluation comes to.
- Theorem {lit}`Activity.BelongsTo.of_comesTo`: what an activity comes to is of the same run.
- Theorem {lit}`Program.run?_error`: the origin of the error that a run ends with.
-/

namespace WhileLang

open Relation (ReflTransGen)

/-! ## Activities -/

/-- Something to evaluate. -/
inductive Task where
  | expr (expr : Expr)
  | args (args : List Expr)
  | stmt (stmt : Stmt)
  /-- The body and the result of a function, in the current frame. -/
  | run (function : FunctionDef)
  | call (function : FunctionDef) (args : List Value)

/-- A task with the stack in which it is evaluated. -/
structure Activity where
  task : Task
  stack : CallStack

/-- The operands of an operator, in the order they are evaluated. -/
def Expr.operands : Expr → List Expr
  | .math _ left right | .compare _ left right | .logic _ left right => [left, right]
  | .not operand => [operand]
  | .literal _ | .var _ | .call .. => []

/-- The expression that a statement evaluates first. -/
def Stmt.subject? : Stmt → Option Expr
  | .assign _ value => some value
  | .seq .. => none
  | .ifThen condition _ | .ifElse condition _ _ | .loop condition _ => some condition

/-- The part of a statement that follows on its condition. -/
def Stmt.branch? (judged : Bool) : Stmt → Option Stmt
  | .ifThen _ body | .loop _ body => if judged then some body else none
  | .ifElse _ body alternative => if judged then some body else some alternative
  | .assign .. | .seq .. => none

namespace Activity

/-- An activity evaluates another one as its next part. -/
inductive ComesTo : Activity → Activity → Prop where
  | firstOperand {stack : CallStack} {expr first : Expr} {rest : List Expr}
      (h : expr.operands = first :: rest) : ComesTo ⟨.expr expr, stack⟩ ⟨.expr first, stack⟩
  | secondOperand {stack after : CallStack} {fuel : Nat} {expr first second : Expr} {value : Value}
      (h : expr.operands = [first, second]) (hfirst : eval fuel first stack = .done value after) :
      ComesTo ⟨.expr expr, stack⟩ ⟨.expr second, after⟩
  | args {stack : CallStack} {name : String} {args : List Expr} :
      ComesTo ⟨.expr (.call name args), stack⟩ ⟨.args args, stack⟩
  | call {stack after : CallStack} {fuel : Nat} {name : String} {args : List Expr}
      {values : List Value} {function : FunctionDef}
      (hargs : evalArgs fuel args stack = .done values after)
      (hfunction : after.function name = .ok function) :
      ComesTo ⟨.expr (.call name args), stack⟩ ⟨.call function values, after⟩
  | firstArg {stack : CallStack} {arg : Expr} {rest : List Expr} :
      ComesTo ⟨.args (arg :: rest), stack⟩ ⟨.expr arg, stack⟩
  | otherArgs {stack after : CallStack} {fuel : Nat} {arg : Expr} {rest : List Expr} {value : Value}
      (harg : eval fuel arg stack = .done value after) :
      ComesTo ⟨.args (arg :: rest), stack⟩ ⟨.args rest, after⟩
  | subject {stack : CallStack} {stmt : Stmt} {expr : Expr} (h : stmt.subject? = some expr) :
      ComesTo ⟨.stmt stmt, stack⟩ ⟨.expr expr, stack⟩
  | firstStmt {stack : CallStack} {first second : Stmt} :
      ComesTo ⟨.stmt (.seq first second), stack⟩ ⟨.stmt first, stack⟩
  | secondStmt {stack after : CallStack} {fuel : Nat} {first second : Stmt}
      (hfirst : exec fuel first stack = .done () after) :
      ComesTo ⟨.stmt (.seq first second), stack⟩ ⟨.stmt second, after⟩
  | branch {stack after : CallStack} {fuel : Nat} {stmt body : Stmt} {condition : Expr}
      {judged : Value} (h : stmt.subject? = some condition)
      (hcondition : eval fuel condition stack = .done judged after)
      (hbranch : stmt.branch? judged.truthy = some body) :
      ComesTo ⟨.stmt stmt, stack⟩ ⟨.stmt body, after⟩
  | again {stack middle after : CallStack} {fuel : Nat} {condition : Expr} {body : Stmt}
      {judged : Value} (hcondition : eval fuel condition stack = .done judged middle)
      (htrue : judged.truthy = true) (hbody : exec fuel body middle = .done () after) :
      ComesTo ⟨.stmt (.loop condition body), stack⟩ ⟨.stmt (.loop condition body), after⟩
  | body {stack : CallStack} {function : FunctionDef} {body : Stmt}
      (h : function.body = some body) : ComesTo ⟨.run function, stack⟩ ⟨.stmt body, stack⟩
  | result {stack : CallStack} {function : FunctionDef} (h : function.body = none) :
      ComesTo ⟨.run function, stack⟩ ⟨.expr function.result, stack⟩
  | resultAfter {stack after : CallStack} {fuel : Nat} {function : FunctionDef} {body : Stmt}
      (h : function.body = some body) (hbody : exec fuel body stack = .done () after) :
      ComesTo ⟨.run function, stack⟩ ⟨.expr function.result, after⟩
  | enter {stack entered : CallStack} {function : FunctionDef} {args : List Value}
      (harity : args.length = function.params.length)
      (henter : stack.enter function.name (function.frame args) = .ok entered) :
      ComesTo ⟨.call function args, stack⟩ ⟨.run function, entered⟩

/-- An activity fails, although all that it has come to ended well. -/
inductive Raises : Activity → SemanticError → Prop where
  | math {stack middle after : CallStack} {fuel : Nat} {op : MathOp} {left right : Expr}
      {a b : Value} {error : SemanticError} (hleft : eval fuel left stack = .done a middle)
      (hright : eval fuel right middle = .done b after) (h : applyMath op a b = .error error) :
      Raises ⟨.expr (.math op left right), stack⟩ error
  | compare {stack middle after : CallStack} {fuel : Nat} {op : CompareOp} {left right : Expr}
      {a b : Value} {error : SemanticError} (hleft : eval fuel left stack = .done a middle)
      (hright : eval fuel right middle = .done b after) (h : applyCompare op a b = .error error) :
      Raises ⟨.expr (.compare op left right), stack⟩ error
  | unknown {stack after : CallStack} {fuel : Nat} {name : String} {args : List Expr}
      {values : List Value} {error : SemanticError}
      (hargs : evalArgs fuel args stack = .done values after)
      (h : after.function name = .error error) : Raises ⟨.expr (.call name args), stack⟩ error
  | arity {stack : CallStack} {function : FunctionDef} {args : List Value}
      (h : args.length ≠ function.params.length) :
      Raises ⟨.call function args, stack⟩
        (.arityMismatch function.name function.params.length args.length)
  | depth {stack : CallStack} {function : FunctionDef} {args : List Value} {error : SemanticError}
      (harity : args.length = function.params.length)
      (h : stack.enter function.name (function.frame args) = .error error) :
      Raises ⟨.call function args, stack⟩ error

/-- An activity fails with an error, with a given amount of fuel. -/
def Fails (fuel : Nat) (activity : Activity) (error : SemanticError) : Prop :=
  match activity.task with
  | .expr expr => ∃ after, eval fuel expr activity.stack = .failed error after
  | .args args => ∃ after, evalArgs fuel args activity.stack = .failed error after
  | .stmt stmt => ∃ after, exec fuel stmt activity.stack = .failed error after
  | .run function => ∃ after, runFunction fuel function activity.stack = .failed error after
  | .call function args =>
    ∃ after, callFunction fuel function args activity.stack = .failed error after

/-- An activity fails by itself, or something that it comes to fails. -/
def FailsOrPasses (fuel : Nat) (activity : Activity) (error : SemanticError) : Prop :=
  activity.Raises error ∨ ∃ next, activity.ComesTo next ∧ next.Fails fuel error

end Activity

/-! ## The errors that are raised -/

theorem applyMath_eq_error {op : MathOp} {left right : Value} {error : SemanticError}
    (h : applyMath op left right = .error error) :
    error = operandMismatch op.symbol left right := by
  unfold applyMath at h
  split at h
  · cases op <;> cases h
  · cases h
    rfl

theorem applyCompare_eq_error {op : CompareOp} {left right : Value} {error : SemanticError}
    (h : applyCompare op left right = .error error) :
    error = operandMismatch op.symbol left right := by
  unfold applyCompare at h
  split at h
  all_goals
    cases h
  rfl

theorem Program.effective_eq_error {program : Program} {name : String} {error : SemanticError} :
    program.effective name = .error error ↔
      program.defines name = false ∧ error = .unknownFunction name := by
  unfold effective defines
  cases program.function? name with
  | none => simp [eq_comm]
  | some function => simp

/-- A call is refused only because too many calls are active. -/
theorem CallStack.enter_eq_error {stack : CallStack} {function : String} {frame : Frame}
    {error : SemanticError} (h : stack.enter function frame = .error error) :
    error = .callDepthExceeded function stack.maxDepth ∧ stack.maxDepth < stack.depth := by
  unfold enter at h
  split at h
  · rename_i hdepth
    cases h
    exact ⟨rfl, hdepth⟩
  · cases h

namespace Activity

/-- Only a call of a function that is not defined raises that it is unknown. -/
theorem Raises.of_unknownFunction {origin : Activity} {name : String}
    (h : origin.Raises (.unknownFunction name)) :
    ∃ args, origin.task = .expr (.call name args) ∧ origin.stack.program.defines name = false := by
  cases h with
  | math _ _ happly => cases applyMath_eq_error happly
  | compare _ _ happly => cases applyCompare_eq_error happly
  | @unknown stack after fuel called args values error hargs hfunction =>
    have hleaves := (evaluation_leaves fuel).evalArgs args stack
    rw [hargs] at hleaves
    obtain rfl : after = stack := hleaves
    obtain ⟨hdefines, heq⟩ := Program.effective_eq_error.1 hfunction
    cases heq
    exact ⟨args, rfl, hdefines⟩
  | depth _ henter => cases (CallStack.enter_eq_error henter).1

end Activity

/-! ## One step towards the origin -/

namespace Outcome

variable {α β : Type}

/-- What goes on from a value fails in the first part or in what goes on. -/
theorem andThen_eq_failed {outcome : Outcome α} {next : α → CallStack → Outcome β}
    {error : SemanticError} {after : CallStack} :
    outcome.andThen next = .failed error after ↔
      outcome = .failed error after
        ∨ ∃ value middle, outcome = .done value middle
            ∧ next value middle = .failed error after := by
  cases outcome with
  | done value stack =>
    constructor
    · exact fun h => .inr ⟨value, stack, rfl, h⟩
    · rintro (h | ⟨_, _, h, hnext⟩)
      · cases h
      · cases h
        exact hnext
  | failed other stack => simp [andThen]
  | outOfFuel => simp [andThen]

theorem ofExcept_eq_failed {result : Except SemanticError α} {error : SemanticError}
    {stack after : CallStack} (h : ofExcept result stack = .failed error after) :
    result = .error error := by
  cases result with
  | ok value => cases h
  | error other =>
    cases h
    rfl

theorem leaving_eq_failed {outcome : Outcome α} {error : SemanticError} {after : CallStack}
    (h : outcome.leaving = .failed error after) : ∃ before, outcome = .failed error before := by
  cases outcome with
  | done value stack => cases h
  | failed other stack =>
    cases h
    exact ⟨stack, rfl⟩
  | outOfFuel => cases h

end Outcome

namespace Activity

open Outcome (andThen_eq_failed ofExcept_eq_failed leaving_eq_failed)

variable {fuel : Nat} {stack after : CallStack} {error : SemanticError}

/-- An operator with two operands fails in one of them, or when it is applied to their values. -/
theorem operands_fail {expr left right : Expr} {next : Value → Value → CallStack → Outcome Value}
    (hoperands : expr.operands = [left, right])
    (h : ((eval fuel left stack).andThen fun a middle =>
      (eval fuel right middle).andThen fun b last => next a b last) = .failed error after) :
    (∃ a b middle last, eval fuel left stack = .done a middle
        ∧ eval fuel right middle = .done b last ∧ next a b last = .failed error after)
      ∨ ∃ next, ComesTo ⟨.expr expr, stack⟩ next ∧ next.Fails fuel error := by
  rcases andThen_eq_failed.1 h with hleft | ⟨a, middle, hleft, h⟩
  · exact .inr ⟨_, .firstOperand hoperands, after, hleft⟩
  rcases andThen_eq_failed.1 h with hright | ⟨b, last, hright, h⟩
  · exact .inr ⟨_, .secondOperand hoperands hleft, after, hright⟩
  · exact .inl ⟨a, b, middle, last, hleft, hright, h⟩

theorem expr_fails {expr : Expr} (h : eval (fuel + 1) expr stack = .failed error after) :
    FailsOrPasses fuel ⟨.expr expr, stack⟩ error := by
  cases expr with
  | literal value => cases h
  | var name => cases h
  | math op left right =>
    refine (operands_fail rfl h).imp_left ?_
    rintro ⟨a, b, middle, last, hleft, hright, happly⟩
    exact .math hleft hright (ofExcept_eq_failed happly)
  | compare op left right =>
    refine (operands_fail rfl h).imp_left ?_
    rintro ⟨a, b, middle, last, hleft, hright, happly⟩
    exact .compare hleft hright (ofExcept_eq_failed happly)
  | logic op left right =>
    refine (operands_fail rfl h).imp_left ?_
    rintro ⟨a, b, middle, last, -, -, happly⟩
    cases happly
  | not operand =>
    rcases andThen_eq_failed.1 h with hoperand | ⟨a, middle, -, happly⟩
    · exact .inr ⟨_, .firstOperand rfl, after, hoperand⟩
    · cases happly
  | call name args =>
    rcases andThen_eq_failed.1 h with hargs | ⟨values, middle, hargs, h⟩
    · exact .inr ⟨_, .args, after, hargs⟩
    · cases hfunction : middle.function name with
      | error other =>
        rw [hfunction] at h
        cases h
        exact .inl (.unknown hargs hfunction)
      | ok function =>
        rw [hfunction] at h
        exact .inr ⟨_, .call hargs hfunction, after, h⟩

theorem args_fail {args : List Expr} (h : evalArgs (fuel + 1) args stack = .failed error after) :
    FailsOrPasses fuel ⟨.args args, stack⟩ error := by
  cases args with
  | nil => cases h
  | cons arg rest =>
    rcases andThen_eq_failed.1 h with harg | ⟨value, middle, harg, h⟩
    · exact .inr ⟨_, .firstArg, after, harg⟩
    rcases andThen_eq_failed.1 h with hrest | ⟨values, last, -, h⟩
    · exact .inr ⟨_, .otherArgs harg, after, hrest⟩
    · cases h

theorem stmt_fails {stmt : Stmt} (h : exec (fuel + 1) stmt stack = .failed error after) :
    FailsOrPasses fuel ⟨.stmt stmt, stack⟩ error := by
  -- What is executed after a condition is a branch of the statement.
  have hbranch {part : Stmt} {condition : Expr} {judged : Value} {middle : CallStack}
      (hsubject : stmt.subject? = some condition)
      (hcondition : eval fuel condition stack = .done judged middle)
      (hpart : stmt.branch? judged.truthy = some part)
      (h : exec fuel part middle = .failed error after) :
      FailsOrPasses fuel ⟨.stmt stmt, stack⟩ error :=
    .inr ⟨_, .branch hsubject hcondition hpart, after, h⟩
  cases stmt with
  | assign name value =>
    rcases andThen_eq_failed.1 h with hvalue | ⟨result, middle, -, h⟩
    · exact .inr ⟨_, .subject rfl, after, hvalue⟩
    · cases h
  | seq first second =>
    rcases andThen_eq_failed.1 h with hfirst | ⟨_, middle, hfirst, h⟩
    · exact .inr ⟨_, .firstStmt, after, hfirst⟩
    · exact .inr ⟨_, .secondStmt hfirst, after, h⟩
  | ifThen condition body =>
    rcases andThen_eq_failed.1 h with hcondition | ⟨judged, middle, hcondition, h⟩
    · exact .inr ⟨_, .subject rfl, after, hcondition⟩
    · split at h
      · rename_i htrue
        exact hbranch rfl hcondition (if_pos htrue) h
      · cases h
  | ifElse condition body alternative =>
    rcases andThen_eq_failed.1 h with hcondition | ⟨judged, middle, hcondition, h⟩
    · exact .inr ⟨_, .subject rfl, after, hcondition⟩
    · split at h
      · rename_i htrue
        exact hbranch rfl hcondition (if_pos htrue) h
      · rename_i hfalse
        exact hbranch rfl hcondition (if_neg hfalse) h
  | loop condition body =>
    rcases andThen_eq_failed.1 h with hcondition | ⟨judged, middle, hcondition, h⟩
    · exact .inr ⟨_, .subject rfl, after, hcondition⟩
    · split at h
      · rename_i htrue
        rcases andThen_eq_failed.1 h with hbody | ⟨_, last, hbody, h⟩
        · exact hbranch rfl hcondition (if_pos htrue) hbody
        · exact .inr ⟨_, .again hcondition htrue hbody, after, h⟩
      · cases h

theorem run_fails {function : FunctionDef}
    (h : runFunction (fuel + 1) function stack = .failed error after) :
    FailsOrPasses fuel ⟨.run function, stack⟩ error := by
  unfold runFunction at h
  split at h
  · rename_i hbody
    exact .inr ⟨_, .result hbody, after, h⟩
  · rename_i body hbody
    rcases andThen_eq_failed.1 h with hexec | ⟨_, middle, hexec, h⟩
    · exact .inr ⟨_, .body hbody, after, hexec⟩
    · exact .inr ⟨_, .resultAfter hbody hexec, after, h⟩

theorem call_fails {function : FunctionDef} {args : List Value}
    (h : callFunction (fuel + 1) function args stack = .failed error after) :
    FailsOrPasses fuel ⟨.call function args, stack⟩ error := by
  unfold callFunction at h
  split at h
  · rename_i harity
    split at h
    · rename_i other henter
      cases h
      exact .inl (.depth harity henter)
    · rename_i entered henter
      obtain ⟨before, hrun⟩ := leaving_eq_failed h
      exact .inr ⟨_, .enter harity henter, before, hrun⟩
  · rename_i harity
    cases h
    exact .inl (.arity harity)

/-- A failure is raised by the activity itself, or passed on from what it comes to. -/
theorem Fails.failsOrPasses {activity : Activity} (h : activity.Fails (fuel + 1) error) :
    activity.FailsOrPasses fuel error := by
  obtain ⟨task, stack⟩ := activity
  cases task with
  | expr expr =>
    obtain ⟨after, h⟩ := h
    exact expr_fails h
  | args args =>
    obtain ⟨after, h⟩ := h
    exact args_fail h
  | stmt stmt =>
    obtain ⟨after, h⟩ := h
    exact stmt_fails h
  | run function =>
    obtain ⟨after, h⟩ := h
    exact run_fails h
  | call function args =>
    obtain ⟨after, h⟩ := h
    exact call_fails h

/-! ## The origin -/

/-- Nothing fails for want of fuel. -/
theorem not_fails_zero {activity : Activity} : ¬ activity.Fails 0 error := by
  obtain ⟨task, stack⟩ := activity
  cases task with
  | expr | args | stmt | run | call =>
    rintro ⟨after, h⟩
    cases h

/-- Every failure is raised by an activity that the evaluation comes to. -/
theorem Fails.exists_origin {activity : Activity} (h : activity.Fails fuel error) :
    ∃ origin, ReflTransGen ComesTo activity origin ∧ origin.Raises error := by
  induction fuel generalizing activity with
  | zero => exact (not_fails_zero h).elim
  | succ fuel ih =>
    rcases h.failsOrPasses with hraises | ⟨next, hnext, hfails⟩
    · exact ⟨activity, .refl, hraises⟩
    · obtain ⟨origin, hreaches, hraises⟩ := ih hfails
      exact ⟨origin, .head hnext hreaches, hraises⟩

end Activity

/-! ## Activities of a run -/

/-- Names of the functions that a task calls. -/
def Task.callees : Task → List String
  | .expr tree => tree.callees
  | .args trees => Expr.callees.calleesOfArgs trees
  | .stmt tree => tree.callees
  | .run function => function.callees
  | .call function _ => function.callees

/-- An activity of a program that is run with a limit of nested calls. -/
structure Activity.BelongsTo (activity : Activity) (program : Program) (limit : Nat) : Prop where
  program_eq : activity.stack.program = program
  maxDepth_eq : activity.stack.maxDepth = limit
  depth_le : activity.stack.depth ≤ limit + 1
  calls : ∀ callee ∈ activity.task.callees, ∃ caller, program.Calls caller callee

theorem Expr.calls_of_mem_operands {expr operand : Expr} (h : operand ∈ expr.operands) :
    operand.calls ⊆ expr.calls := by
  cases expr with
  | literal | var | call => cases h
  | not other =>
    obtain rfl := List.mem_singleton.1 h
    exact List.Subset.refl _
  | math | compare | logic =>
    rcases List.mem_cons.1 h with rfl | h
    · exact List.subset_append_left _ _
    · obtain rfl := List.mem_singleton.1 h
      exact List.subset_append_right _ _

theorem Stmt.calls_of_subject? {stmt : Stmt} {expr : Expr} (h : stmt.subject? = some expr) :
    expr.calls ⊆ stmt.calls := by
  cases stmt with
  | seq => cases h
  | assign =>
    cases h
    exact List.Subset.refl _
  | ifThen | ifElse | loop =>
    cases h
    exact List.subset_append_left _ _

theorem Stmt.calls_of_branch? {stmt body : Stmt} {judged : Bool}
    (h : stmt.branch? judged = some body) : body.calls ⊆ stmt.calls := by
  cases stmt with
  | assign | seq => cases h
  | ifThen | loop =>
    cases judged with
    | false => cases h
    | true =>
      cases h
      exact List.subset_append_right _ _
  | ifElse condition body alternative =>
    cases judged with
    | false =>
      cases h
      exact List.Subset.trans (List.subset_append_right _ _) (List.subset_append_right _ _)
    | true =>
      cases h
      exact List.Subset.trans (List.subset_append_left _ _) (List.subset_append_right _ _)

theorem Expr.callees_of_mem_operands {expr operand : Expr} (h : operand ∈ expr.operands) :
    operand.callees ⊆ expr.callees := by
  rw [callees_eq, callees_eq]
  exact List.map_subset _ (calls_of_mem_operands h)

theorem Stmt.callees_of_subject? {stmt : Stmt} {expr : Expr} (h : stmt.subject? = some expr) :
    expr.callees ⊆ stmt.callees := by
  rw [Expr.callees_eq, callees_eq]
  exact List.map_subset _ (calls_of_subject? h)

theorem Stmt.callees_of_branch? {stmt body : Stmt} {judged : Bool}
    (h : stmt.branch? judged = some body) : body.callees ⊆ stmt.callees := by
  rw [callees_eq, callees_eq]
  exact List.map_subset _ (calls_of_branch? h)

namespace Activity

variable {program : Program} {maxDepth : Nat} {task next : Task} {stack after : CallStack}

/-- A part of a task belongs to the same run, over the stack that earlier parts have left. -/
theorem BelongsTo.part (h : BelongsTo ⟨task, stack⟩ program maxDepth)
    (hbelow : stack.SameBelow after) (hcallees : next.callees ⊆ task.callees) :
    BelongsTo ⟨next, after⟩ program maxDepth := by
  obtain ⟨frame, rfl⟩ := hbelow
  exact ⟨h.program_eq, h.maxDepth_eq, h.depth_le, fun callee hmem => h.calls callee (hcallees hmem)⟩

theorem sameBelow_of_eval {fuel : Nat} {expr : Expr} {value : Value}
    (h : eval fuel expr stack = .done value after) : stack.SameBelow after := by
  have hleaves := (evaluation_leaves fuel).eval expr stack
  rw [h] at hleaves
  exact (show after = stack from hleaves) ▸ .refl stack

theorem sameBelow_of_evalArgs {fuel : Nat} {args : List Expr} {values : List Value}
    (h : evalArgs fuel args stack = .done values after) : stack.SameBelow after := by
  have hleaves := (evaluation_leaves fuel).evalArgs args stack
  rw [h] at hleaves
  exact (show after = stack from hleaves) ▸ .refl stack

theorem sameBelow_of_exec {fuel : Nat} {stmt : Stmt}
    (h : exec fuel stmt stack = .done () after) : stack.SameBelow after := by
  have hleaves := (evaluation_leaves fuel).exec stmt stack
  rw [h] at hleaves
  exact hleaves

/-- What an activity comes to belongs to the same run. -/
theorem BelongsTo.of_comesTo {activity next : Activity} (h : activity.BelongsTo program maxDepth)
    (hnext : activity.ComesTo next) : next.BelongsTo program maxDepth := by
  cases hnext with
  | firstOperand hoperands =>
    exact h.part (.refl _) (Expr.callees_of_mem_operands (by simp [hoperands]))
  | secondOperand hoperands hfirst =>
    exact h.part (sameBelow_of_eval hfirst) (Expr.callees_of_mem_operands (by simp [hoperands]))
  | args => exact h.part (.refl _) (List.subset_cons_self _ _)
  | call hargs hfunction =>
    obtain ⟨frame, rfl⟩ := sameBelow_of_evalArgs hargs
    have heffective := Program.effective_eq_ok.1 hfunction
    exact ⟨h.program_eq, h.maxDepth_eq, h.depth_le,
      fun callee hmem => ⟨_, _, h.program_eq ▸ heffective, hmem⟩⟩
  | firstArg => exact h.part (.refl _) (List.subset_append_left _ _)
  | otherArgs harg => exact h.part (sameBelow_of_eval harg) (List.subset_append_right _ _)
  | subject hsubject => exact h.part (.refl _) (Stmt.callees_of_subject? hsubject)
  | firstStmt => exact h.part (.refl _) (List.subset_append_left _ _)
  | secondStmt hfirst => exact h.part (sameBelow_of_exec hfirst) (List.subset_append_right _ _)
  | branch hsubject hcondition hbranch =>
    exact h.part (sameBelow_of_eval hcondition) (Stmt.callees_of_branch? hbranch)
  | again hcondition htrue hbody =>
    exact h.part ((sameBelow_of_eval hcondition).trans (sameBelow_of_exec hbody))
      (List.Subset.refl _)
  | @body stack function body hbody =>
    refine h.part (.refl _) fun callee hmem => List.mem_append_left _ ?_
    rw [hbody]
    exact hmem
  | result _ => exact h.part (.refl _) (List.subset_append_right _ _)
  | resultAfter _ hbody => exact h.part (sameBelow_of_exec hbody) (List.subset_append_right _ _)
  | enter harity henter =>
    unfold CallStack.enter at henter
    split at henter
    · cases henter
    · rename_i hdepth
      cases henter
      refine ⟨h.program_eq, h.maxDepth_eq, ?_, h.calls⟩
      have hmax := h.maxDepth_eq
      simp only [CallStack.depth, List.length_cons] at hdepth hmax ⊢
      omega

theorem BelongsTo.of_comesTo_all {activity origin : Activity}
    (h : activity.BelongsTo program maxDepth) (hreaches : ReflTransGen ComesTo activity origin) :
    origin.BelongsTo program maxDepth := by
  induction hreaches with
  | refl => exact h
  | tail _ hstep ih => exact ih.of_comesTo hstep

end Activity

/-! ## The errors of runs -/

namespace Program

variable {program : Program} {maxDepth fuel : Nat} {error : SemanticError}

/-- What a run starts with. -/
def start (program : Program) (maxDepth : Nat) (main : FunctionDef) : Activity :=
  ⟨.run main, .new program maxDepth⟩

theorem start_belongsTo {main : FunctionDef} (h : program.function? entryPoint = some main) :
    (program.start maxDepth main).BelongsTo program maxDepth where
  program_eq := rfl
  maxDepth_eq := rfl
  depth_le := Nat.le_add_left 1 maxDepth
  calls _ hmem := ⟨entryPoint, main, h, hmem⟩

/-- A run that ends with an error has come to the activity that raises it, or could not start. -/
theorem run?_error (h : program.run? maxDepth fuel = some (.error error)) :
    program.effective entryPoint = .error error
      ∨ ∃ main origin, program.function? entryPoint = some main
        ∧ ReflTransGen Activity.ComesTo (program.start maxDepth main) origin
        ∧ origin.Raises error ∧ origin.BelongsTo program maxDepth := by
  unfold run? at h
  cases hmain : program.effective entryPoint with
  | error other =>
    have hstart : (CallStack.new program maxDepth).function entryPoint = .error other := hmain
    simp only [hstart, Option.some.injEq, Except.error.injEq] at h
    exact .inl (congrArg _ h)
  | ok main =>
    have hstart : (CallStack.new program maxDepth).function entryPoint = .ok main := hmain
    simp only [hstart] at h
    have hfunction := effective_eq_ok.1 hmain
    have hfails : (program.start maxDepth main).Fails fuel error := by
      cases houtcome : runFunction fuel main (.new program maxDepth) with
      | done value stack =>
        rw [houtcome] at h
        cases h
      | failed other stack =>
        rw [houtcome] at h
        cases h
        exact ⟨stack, houtcome⟩
      | outOfFuel =>
        rw [houtcome] at h
        cases h
    obtain ⟨origin, hreaches, hraises⟩ := hfails.exists_origin
    exact .inr ⟨main, origin, hfunction, hreaches, hraises,
      (start_belongsTo hfunction).of_comesTo_all hreaches⟩

end Program

end WhileLang
