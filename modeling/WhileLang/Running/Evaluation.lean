import WhileLang.Running.CallStack

/-!
# Evaluation

Expressions and statements are evaluated over a call stack.  A program need not terminate, so
evaluation is bounded by fuel: each step into a part, a call or a further round of a loop uses one
unit, and an evaluation that runs out of fuel is told apart from one that fails.

Main definitions:

- Type {lit}`Outcome`: a value, a failure, or neither yet; the first two with the stack left behind.
- Functions {lit}`applyMath` and {lit}`applyCompare`: the operators on values.
- Functions {lit}`eval`, {lit}`exec`, {lit}`runFunction` and {lit}`callFunction`.
-/

namespace WhileLang

/-! ## Outcomes -/

/-- How an evaluation ends. -/
inductive Outcome (α : Type) where
  | done (value : α) (stack : CallStack)
  | failed (error : SemanticError) (stack : CallStack)
  | outOfFuel
deriving DecidableEq

namespace Outcome

variable {α β : Type}

/-- Go on from a value. -/
@[inline]
def andThen (outcome : Outcome α) (next : α → CallStack → Outcome β) : Outcome β :=
  match outcome with
  | .done value stack => next value stack
  | .failed error stack => .failed error stack
  | .outOfFuel => .outOfFuel

/-- The outcome of a step that leaves the stack as it is. -/
def ofExcept (result : Except SemanticError α) (stack : CallStack) : Outcome α :=
  match result with
  | .ok value => .done value stack
  | .error error => .failed error stack

/-- Leave the current frame, whether there is a value or a failure. -/
def leaving : Outcome α → Outcome α
  | .done value stack => .done value stack.leave.2
  | .failed error stack => .failed error stack.leave.2
  | .outOfFuel => .outOfFuel

end Outcome

/-! ## Operators -/

/-- The failure of an operator on operands it does not take. -/
def operandMismatch (operator : String) (left right : Value) : SemanticError :=
  .operandMismatch operator left.describe right.describe

/-- Arithmetic takes integers, and wraps around. -/
def applyMath (op : MathOp) (left right : Value) : Except SemanticError Value :=
  match left, right with
  | .int a, .int b =>
    match op with
    | .add => .ok (.int (a + b))
    | .sub => .ok (.int (a - b))
  | _, _ => .error (operandMismatch op.symbol left right)

/-- Comparison of integers. -/
def compareInts (op : CompareOp) (a b : Int64) : Bool :=
  match op with
  | .lt => a < b
  | .le => a ≤ b
  | .gt => b < a
  | .ge => b ≤ a
  | .eq => a = b
  | .ne => a ≠ b

/-- Integers have an order; booleans can only be tested for equality, and only with each other. -/
def applyCompare (op : CompareOp) (left right : Value) : Except SemanticError Value :=
  match left, right, op with
  | .int a, .int b, op => .ok (.bool (compareInts op a b))
  | .bool a, .bool b, .eq => .ok (.bool (a = b))
  | .bool a, .bool b, .ne => .ok (.bool (a ≠ b))
  | _, _, _ => .error (operandMismatch op.symbol left right)

/-- Logical operators judge both operands as conditions. -/
def applyLogic (op : LogicOp) (left right : Value) : Value :=
  match op with
  | .and => .bool (left.truthy && right.truthy)
  | .or => .bool (left.truthy || right.truthy)

/-! ## Evaluation -/

/-- The frame of a call: the parameters are set to the arguments in order. -/
def FunctionDef.frame (function : FunctionDef) (args : List Value) : Frame :=
  .ofList (function.params.zip args)

mutual

/-- Evaluate an expression.  Both operands of every operator are evaluated, the left one first. -/
def eval (fuel : Nat) (expr : Expr) (stack : CallStack) : Outcome Value :=
  match fuel with
  | 0 => .outOfFuel
  | fuel + 1 =>
    match expr with
    | .literal value => .done value stack
    | .var name => .done (stack.resolve name) stack
    | .math op left right =>
      (eval fuel left stack).andThen fun a stack =>
        (eval fuel right stack).andThen fun b stack => .ofExcept (applyMath op a b) stack
    | .compare op left right =>
      (eval fuel left stack).andThen fun a stack =>
        (eval fuel right stack).andThen fun b stack => .ofExcept (applyCompare op a b) stack
    | .logic op left right =>
      (eval fuel left stack).andThen fun a stack =>
        (eval fuel right stack).andThen fun b stack => .done (applyLogic op a b) stack
    | .not operand =>
      (eval fuel operand stack).andThen fun a stack => .done (.bool !a.truthy) stack
    | .call name args =>
      (evalArgs fuel args stack).andThen fun values stack =>
        match stack.function name with
        | .error error => .failed error stack
        | .ok function => callFunction fuel function values stack
termination_by structural fuel

/-- Evaluate arguments from the left. -/
def evalArgs (fuel : Nat) (args : List Expr) (stack : CallStack) : Outcome (List Value) :=
  match fuel with
  | 0 => .outOfFuel
  | fuel + 1 =>
    match args with
    | [] => .done [] stack
    | arg :: rest =>
      (eval fuel arg stack).andThen fun value stack =>
        (evalArgs fuel rest stack).andThen fun values stack => .done (value :: values) stack
termination_by structural fuel

/-- Execute a statement. -/
def exec (fuel : Nat) (stmt : Stmt) (stack : CallStack) : Outcome Unit :=
  match fuel with
  | 0 => .outOfFuel
  | fuel + 1 =>
    match stmt with
    | .assign name value =>
      (eval fuel value stack).andThen fun result stack => .done () (stack.assign name result)
    | .seq first second =>
      (exec fuel first stack).andThen fun _ stack => exec fuel second stack
    | .ifThen condition body =>
      (eval fuel condition stack).andThen fun judged stack =>
        if judged.truthy then exec fuel body stack else .done () stack
    | .ifElse condition body alternative =>
      (eval fuel condition stack).andThen fun judged stack =>
        if judged.truthy then exec fuel body stack else exec fuel alternative stack
    | .loop condition body =>
      (eval fuel condition stack).andThen fun judged stack =>
        if judged.truthy then
          (exec fuel body stack).andThen fun _ stack => exec fuel (.loop condition body) stack
        else .done () stack
termination_by structural fuel

/-- Run the body of a function in the current frame, and then its result. -/
def runFunction (fuel : Nat) (function : FunctionDef) (stack : CallStack) : Outcome Value :=
  match fuel with
  | 0 => .outOfFuel
  | fuel + 1 =>
    match function.body with
    | none => eval fuel function.result stack
    | some body => (exec fuel body stack).andThen fun _ stack => eval fuel function.result stack
termination_by structural fuel

/-- Call a function: it runs in a frame of its own, which is left also after a failure. -/
def callFunction (fuel : Nat) (function : FunctionDef) (args : List Value) (stack : CallStack) :
    Outcome Value :=
  match fuel with
  | 0 => .outOfFuel
  | fuel + 1 =>
    if args.length = function.params.length then
      match stack.enter function.name (function.frame args) with
      | .error error => .failed error stack
      | .ok entered => (runFunction fuel function entered).leaving
    else
      .failed (.arityMismatch function.name function.params.length args.length) stack
termination_by structural fuel

end

end WhileLang
