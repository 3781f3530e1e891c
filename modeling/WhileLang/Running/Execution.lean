import WhileLang.Running.Evaluation

/-!
# Executions

What a run leaves behind: the variables of the bottom frame, and the value returned.

Main definitions:

- Type {lit}`Execution`.
- Functions {lit}`Program.run?` and {lit}`Stmt.run?`: run a program or a bare block; there is no
  result if the fuel does not suffice.
-/

namespace WhileLang

/-- The number of nested calls allowed where nothing else is said. -/
def defaultMaxDepth : Nat :=
  1000

/-- The result of a run. -/
structure Execution where
  bindings : List (String × Value)
  /-- A bare block returns nothing. -/
  returned : Option Value
deriving DecidableEq

namespace Execution

/-- The value of a variable at the end. -/
def get? (execution : Execution) (name : String) : Option Value :=
  execution.bindings.lookup name

/-- A line for every variable; the value returned is not printed. -/
def text (execution : Execution) : String :=
  String.join (execution.bindings.map fun (name, value) => name ++ ": " ++ value.text ++ "\n")

end Execution

/-- The result of a run that has ended, from the bottom frame and the value returned. -/
def Outcome.execution? {α : Type} (outcome : Outcome α) (returned : α → Option Value) :
    Option (Except SemanticError Execution) :=
  match outcome with
  | .done value stack => some (.ok ⟨stack.leave.1.bindings, returned value⟩)
  | .failed error _ => some (.error error)
  | .outOfFuel => none

/-- Run the entry point of a program in the bottom frame. -/
def Program.run? (program : Program) (maxDepth fuel : Nat) :
    Option (Except SemanticError Execution) :=
  let stack := CallStack.new program maxDepth
  match stack.function entryPoint with
  | .error error => some (.error error)
  | .ok main => (runFunction fuel main stack).execution? some

/-- Run a block in the bottom frame, without functions to call. -/
def Stmt.run? (script : Stmt) (maxDepth fuel : Nat) : Option (Except SemanticError Execution) :=
  (exec fuel script (.detached maxDepth)).execution? fun _ => none

end WhileLang
