import WhileLang.Running.Frame
import WhileLang.Syntax.Lookup

/-!
# The call stack

The frames of all active calls.  Only the current frame is read and written, and there always is
one.

Main definitions:

- Type {lit}`CallStack`, with the functions that can be called and the limit of nested calls.
- Functions {lit}`CallStack.enter` and {lit}`CallStack.leave`: the frame of a call.
- Functions {lit}`CallStack.resolve` and {lit}`CallStack.assign`: variables of the current frame.
-/

namespace WhileLang

/-- The active calls of a run. -/
structure CallStack where
  /-- The program whose functions can be called. -/
  program : Program
  /-- The frame of the innermost call. -/
  current : Frame
  /-- The frames below, the innermost first. -/
  callers : List Frame
  /-- How many calls may be nested. -/
  maxDepth : Nat
deriving DecidableEq

namespace CallStack

/-- A stack of one empty frame, over the functions of a program. -/
def new (program : Program) (maxDepth : Nat) : CallStack where
  program := program
  current := .empty
  callers := []
  maxDepth := maxDepth

/-- A stack of one empty frame without functions. -/
def detached (maxDepth : Nat) : CallStack :=
  new ⟨[]⟩ maxDepth

/-- The function of a name. -/
def function (stack : CallStack) (name : String) : Except SemanticError FunctionDef :=
  stack.program.effective name

/-- The number of frames. -/
def depth (stack : CallStack) : Nat :=
  stack.callers.length + 1

/-- Put a frame on top for a call to a function, unless too many calls are active. -/
def enter (stack : CallStack) (function : String) (frame : Frame) :
    Except SemanticError CallStack :=
  if stack.maxDepth < stack.depth then .error (.callDepthExceeded function stack.maxDepth)
  else .ok { stack with current := frame, callers := stack.current :: stack.callers }

/-- Take the top frame away.  The bottom frame leaves an empty one in its place. -/
def leave (stack : CallStack) : Frame × CallStack :=
  match stack.callers with
  | [] => (stack.current, { stack with current := .empty })
  | caller :: callers => (stack.current, { stack with current := caller, callers })

/-- The value of a variable; one that was never assigned reads as zero. -/
def resolve (stack : CallStack) (name : String) : Value :=
  (stack.current.get? name).getD default

/-- Assign a variable of the current frame. -/
def assign (stack : CallStack) (name : String) (value : Value) : CallStack :=
  { stack with current := stack.current.set name value }

/-! ## Depth and variables -/

/-- A call that was entered is left with its frame, and the stack is as it was before. -/
theorem leave_of_enter {stack entered : CallStack} {function : String} {frame : Frame}
    (h : stack.enter function frame = .ok entered) : entered.leave = (frame, stack) := by
  unfold enter at h
  split at h
  · cases h
  · cases h
    rfl

/-- A call can be entered as long as no more calls are active than allowed. -/
theorem enter_isOk_iff {stack : CallStack} {function : String} {frame : Frame} :
    (∃ entered, stack.enter function frame = .ok entered) ↔ stack.depth ≤ stack.maxDepth := by
  unfold enter
  split
  · rename_i h
    simp only [reduceCtorEq, exists_false, false_iff]
    omega
  · rename_i h
    simp only [Except.ok.injEq, exists_eq', true_iff]
    omega

/-- An assigned variable has its new value, and the others keep theirs. -/
theorem resolve_assign (stack : CallStack) (name other : String) (value : Value) :
    (stack.assign name value).resolve other
      = if other = name then value else stack.resolve other := by
  unfold resolve assign
  rw [Frame.get?_set]
  split <;> rfl

end CallStack

end WhileLang
