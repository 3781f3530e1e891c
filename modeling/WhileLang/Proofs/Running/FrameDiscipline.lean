import WhileLang.Running.Evaluation

/-!
# Frame discipline

What an evaluation does to the call stack, whether it ends with a value or with a failure.

Main definitions:

- Predicate {lit}`Outcome.Leaves`: the stack left behind has a property.
- Relation {lit}`CallStack.SameBelow`: two stacks differ in their current frames at most.

Main results:

- Theorem {lit}`evaluation_leaves`: expressions and calls leave the stack as it was, statements and
  bodies of functions leave all frames below the current one as they were.
-/

namespace WhileLang

/-- The stack that an evaluation leaves behind, if it ends, has a property. -/
def Outcome.Leaves {α : Type} (outcome : Outcome α) (p : CallStack → Prop) : Prop :=
  match outcome with
  | .done _ stack => p stack
  | .failed _ stack => p stack
  | .outOfFuel => True

/-- Two stacks differ in their current frames at most. -/
def CallStack.SameBelow (stack other : CallStack) : Prop :=
  ∃ frame, other = { stack with current := frame }

namespace CallStack

theorem SameBelow.refl (stack : CallStack) : stack.SameBelow stack :=
  ⟨stack.current, rfl⟩

theorem SameBelow.trans {first second third : CallStack} (h : first.SameBelow second)
    (h' : second.SameBelow third) : first.SameBelow third := by
  obtain ⟨_, rfl⟩ := h
  obtain ⟨frame, rfl⟩ := h'
  exact ⟨frame, rfl⟩

theorem SameBelow.assign (stack : CallStack) (name : String) (value : Value) :
    stack.SameBelow (stack.assign name value) :=
  ⟨_, rfl⟩

/-- Leaving a call depends only on the frames below. -/
theorem SameBelow.leave_eq {stack entered other : CallStack} {function : String} {frame : Frame}
    (henter : stack.enter function frame = .ok entered) (h : entered.SameBelow other) :
    other.leave.2 = stack := by
  unfold enter at henter
  split at henter
  · cases henter
  · cases henter
    obtain ⟨_, rfl⟩ := h
    rfl

end CallStack

namespace Outcome

variable {α β : Type} {p q : CallStack → Prop}

theorem Leaves.mono {outcome : Outcome α} (h : outcome.Leaves p)
    (hpq : ∀ stack, p stack → q stack) :
    outcome.Leaves q := by
  cases outcome with
  | done value stack => exact hpq stack h
  | failed error stack => exact hpq stack h
  | outOfFuel => trivial

/-- Going on from a value leaves what the second part leaves, or what a failure before it does. -/
theorem Leaves.andThen {outcome : Outcome α} {next : α → CallStack → Outcome β}
    (h : outcome.Leaves p) (hfailed : ∀ stack, p stack → q stack)
    (hnext : ∀ value stack, p stack → (next value stack).Leaves q) :
    (outcome.andThen next).Leaves q := by
  cases outcome with
  | done value stack => exact hnext value stack h
  | failed error stack => exact hfailed stack h
  | outOfFuel => trivial

theorem leaves_ofExcept {result : Except SemanticError α} {stack : CallStack} (h : p stack) :
    (ofExcept result stack).Leaves p := by
  cases result with
  | ok value => exact h
  | error error => exact h

end Outcome

open CallStack (SameBelow)

/-- What the parts of an evaluation leave behind, with a given amount of fuel. -/
structure LeavesFrames (fuel : Nat) : Prop where
  eval (expr : Expr) (stack : CallStack) : (eval fuel expr stack).Leaves (· = stack)
  evalArgs (args : List Expr) (stack : CallStack) : (evalArgs fuel args stack).Leaves (· = stack)
  exec (stmt : Stmt) (stack : CallStack) : (exec fuel stmt stack).Leaves (SameBelow stack)
  runFunction (function : FunctionDef) (stack : CallStack) :
    (runFunction fuel function stack).Leaves (SameBelow stack)
  callFunction (function : FunctionDef) (args : List Value) (stack : CallStack) :
    (callFunction fuel function args stack).Leaves (· = stack)

namespace LeavesFrames

variable {fuel : Nat}

theorem eval_succ (h : LeavesFrames fuel) (expr : Expr) (stack : CallStack) :
    (WhileLang.eval (fuel + 1) expr stack).Leaves (· = stack) := by
  -- Both operands of a binary operator see the stack that the operator sees.
  have hboth (left right : Expr) (next : Value → Value → CallStack → Outcome Value)
      (hnext : ∀ a b, (next a b stack).Leaves (· = stack)) :
      ((WhileLang.eval fuel left stack).andThen fun a after =>
        (WhileLang.eval fuel right after).andThen fun b after => next a b after).Leaves
          (· = stack) := by
    refine (h.eval left stack).andThen (fun _ h => h) ?_
    rintro a _ rfl
    refine (h.eval right _).andThen (fun _ h => h) ?_
    rintro b _ rfl
    exact hnext a b
  cases expr with
  | literal value => rfl
  | var name => rfl
  | math op left right => exact hboth left right _ fun a b => Outcome.leaves_ofExcept rfl
  | compare op left right => exact hboth left right _ fun a b => Outcome.leaves_ofExcept rfl
  | logic op left right => exact hboth left right _ fun a b => rfl
  | not operand =>
    refine (h.eval operand stack).andThen (fun _ h => h) ?_
    rintro a _ rfl
    rfl
  | call name args =>
    refine (h.evalArgs args stack).andThen (fun _ h => h) ?_
    rintro values _ rfl
    split
    · rfl
    · exact h.callFunction _ values _

theorem evalArgs_succ (h : LeavesFrames fuel) (args : List Expr) (stack : CallStack) :
    (WhileLang.evalArgs (fuel + 1) args stack).Leaves (· = stack) := by
  cases args with
  | nil => rfl
  | cons arg rest =>
    refine (h.eval arg stack).andThen (fun _ h => h) ?_
    rintro value _ rfl
    refine (h.evalArgs rest _).andThen (fun _ h => h) ?_
    rintro values _ rfl
    rfl

theorem exec_succ (h : LeavesFrames fuel) (stmt : Stmt) (stack : CallStack) :
    (WhileLang.exec (fuel + 1) stmt stack).Leaves (SameBelow stack) := by
  -- A condition leaves the stack as it is, so only what follows it counts.
  have hcondition (condition : Expr) (next : Value → CallStack → Outcome Unit)
      (hnext : ∀ judged, (next judged stack).Leaves (SameBelow stack)) :
      ((WhileLang.eval fuel condition stack).andThen next).Leaves (SameBelow stack) := by
    refine (h.eval condition stack).andThen ?_ ?_
    · rintro _ rfl
      exact .refl _
    · rintro judged _ rfl
      exact hnext judged
  cases stmt with
  | assign name value => exact hcondition value _ fun result => SameBelow.assign stack name result
  | seq first second =>
    refine (h.exec first stack).andThen (fun _ h => h) fun _ after hafter => ?_
    exact (h.exec second after).mono fun _ => hafter.trans
  | ifThen condition body =>
    refine hcondition condition _ fun judged => ?_
    split
    · exact h.exec body stack
    · exact .refl stack
  | ifElse condition body alternative =>
    refine hcondition condition _ fun judged => ?_
    split
    · exact h.exec body stack
    · exact h.exec alternative stack
  | loop condition body =>
    refine hcondition condition _ fun judged => ?_
    split
    · refine (h.exec body stack).andThen (fun _ h => h) fun _ after hafter => ?_
      exact (h.exec (.loop condition body) after).mono fun _ => hafter.trans
    · exact .refl stack

theorem runFunction_succ (h : LeavesFrames fuel) (function : FunctionDef) (stack : CallStack) :
    (WhileLang.runFunction (fuel + 1) function stack).Leaves (SameBelow stack) := by
  have hresult (after : CallStack) (hafter : stack.SameBelow after) :
      (WhileLang.eval fuel function.result after).Leaves (SameBelow stack) := by
    refine (h.eval function.result after).mono ?_
    rintro _ rfl
    exact hafter
  unfold WhileLang.runFunction
  split
  · exact hresult stack (.refl stack)
  · exact (h.exec _ stack).andThen (fun _ h => h) fun _ after => hresult after

theorem callFunction_succ (h : LeavesFrames fuel) (function : FunctionDef) (args : List Value)
    (stack : CallStack) :
    (WhileLang.callFunction (fuel + 1) function args stack).Leaves (· = stack) := by
  unfold WhileLang.callFunction
  split
  · split
    · rfl
    · rename_i entered henter
      have hrun := h.runFunction function entered
      revert hrun
      cases WhileLang.runFunction fuel function entered with
      | done value after => exact fun hafter => hafter.leave_eq henter
      | failed error after => exact fun hafter => hafter.leave_eq henter
      | outOfFuel => exact fun _ => trivial
  · rfl

end LeavesFrames

/--
Expressions and calls leave the stack as it was, statements and bodies of functions leave all
frames below the current one as they were.
-/
theorem evaluation_leaves (fuel : Nat) : LeavesFrames fuel := by
  induction fuel with
  | zero => exact ⟨fun _ _ => trivial, fun _ _ => trivial, fun _ _ => trivial, fun _ _ => trivial,
      fun _ _ _ => trivial⟩
  | succ fuel ih => exact ⟨ih.eval_succ, ih.evalArgs_succ, ih.exec_succ, ih.runFunction_succ,
      ih.callFunction_succ⟩

end WhileLang
