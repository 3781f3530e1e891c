import Mathlib.Data.List.Forall2
import WhileLang.Proofs.Running.Assignments

/-!
# Histories of a call stack

A call stack is worked on from outside by single operations and by whole evaluations, in any order
and whether they fail or not.  A log is kept for every frame: what was assigned in it since it was
made.  However long the history is, the depth stays within its bounds, and every frame is what its
log says.

The log of an execution is read off the real recursion: each assignment is seen where the statement
is executed, with the value that was evaluated there.

Main definitions:

- Structure {lit}`Frame.Holds`: a frame holds what was assigned in it.
- Function {lit}`Stmt.assignments`: the assignments of an execution.
- Type {lit}`CallStack.Operation`, with the stack that an operation leaves behind and the logs.
- Relation {lit}`CallStack.History`: operations one after the other.

Main results:

- Theorem {lit}`exec_assignments`: an execution makes its assignments, and nothing else.
- Theorem {lit}`CallStack.IsLogged.perform`: one operation keeps the bounds and the logs.
- Theorem {lit}`CallStack.invariant_of_history`: so does every history.
-/

namespace WhileLang

/-! ## What a frame holds -/

namespace Frame

variable {frame : Frame} {assignments : List (String × Value)}

/--
A frame holds what was assigned in it: each name once, in the order of the first assignments, with
the value of its last assignment.
-/
structure Holds (frame : Frame) (assignments : List (String × Value)) : Prop where
  nodup : frame.names.Nodup
  names : frame.names = (assignments.map (·.1)).eraseDups
  last (name : String) : frame.get? name = assignments.reverse.lookup name

theorem holds_empty : empty.Holds [] where
  nodup := List.nodup_nil
  names := rfl
  last _ := rfl

/-- One more assignment. -/
theorem Holds.set (h : frame.Holds assignments) (name : String) (value : Value) :
    (frame.set name value).Holds (assignments ++ [(name, value)]) where
  nodup := by
    rw [names_set]
    by_cases hbound : name ∈ frame.names
    · simp [hbound, h.nodup]
    · have hother : ∀ other ∈ frame.names, other ≠ name :=
        fun _ hmem => ne_of_mem_of_not_mem hmem hbound
      simpa [hbound, List.nodup_append, h.nodup] using hother
  names := by
    have hmem : name ∈ frame.names ↔ name ∈ assignments.map (·.1) := by
      rw [h.names, List.mem_eraseDups]
    rw [names_set, List.map_append, List.eraseDups_append, ← h.names]
    by_cases hbound : name ∈ frame.names
    · simp [hbound, List.removeAll, hmem.1 hbound]
    · simp [hbound, List.removeAll, mt hmem.2 hbound, List.eraseDups_cons]
  last other := by
    rw [get?_set, List.reverse_append, h.last]
    by_cases hsame : other = name
    · simp [hsame]
    · simp [hsame, List.lookup_cons, beq_eq_false_iff_ne.2 hsame]

/-- Several assignments more. -/
theorem Holds.setAll (h : frame.Holds assignments) (more : List (String × Value)) :
    (more.foldl (fun frame binding => frame.set binding.1 binding.2) frame).Holds
      (assignments ++ more) := by
  induction more generalizing frame assignments with
  | nil => simpa using h
  | cons binding more ih => simpa using ih (h.set binding.1 binding.2)

theorem holds_ofList (bindings : List (String × Value)) : (ofList bindings).Holds bindings :=
  holds_empty.setAll bindings

end Frame

/-! ## What an execution assigns -/

section

variable {α β : Type}

/-- What is seen of the part that goes on from a value; nothing if there is no value. -/
def Outcome.seen (outcome : Outcome α) (next : α → CallStack → List β) : List β :=
  match outcome with
  | .done value stack => next value stack
  | .failed _ _ => []
  | .outOfFuel => []

/-- The stack that an evaluation leaves behind, whether it fails or not. -/
def Outcome.stack? : Outcome α → Option CallStack
  | .done _ stack => some stack
  | .failed _ stack => some stack
  | .outOfFuel => none

theorem Outcome.Leaves.of_stack? {outcome : Outcome α} {p : CallStack → Prop} {after : CallStack}
    (h : outcome.Leaves p) (hafter : outcome.stack? = some after) : p after := by
  cases outcome <;> cases hafter <;> exact h

end

/-- The assignments that the execution of a statement makes in the current frame, in their order. -/
def Stmt.assignments (fuel : Nat) (stmt : Stmt) (stack : CallStack) : List (String × Value) :=
  match fuel with
  | 0 => []
  | fuel + 1 =>
    match stmt with
    | .assign name value => (eval fuel value stack).seen fun result _ => [(name, result)]
    | .seq first second =>
      first.assignments fuel stack
        ++ (exec fuel first stack).seen fun _ stack => second.assignments fuel stack
    | .ifThen condition body =>
      (eval fuel condition stack).seen fun judged stack =>
        if judged.truthy then body.assignments fuel stack else []
    | .ifElse condition body alternative =>
      (eval fuel condition stack).seen fun judged stack =>
        if judged.truthy then body.assignments fuel stack else alternative.assignments fuel stack
    | .loop condition body =>
      (eval fuel condition stack).seen fun judged stack =>
        if judged.truthy then
          body.assignments fuel stack
            ++ (exec fuel body stack).seen fun _ stack =>
              (Stmt.loop condition body).assignments fuel stack
        else []
termination_by structural fuel

/-- The assignments that the body of a function makes in the current frame. -/
def FunctionDef.assignments (fuel : Nat) (function : FunctionDef) (stack : CallStack) :
    List (String × Value) :=
  match fuel with
  | 0 => []
  | fuel + 1 => function.body.elim [] fun body => body.assignments fuel stack

namespace CallStack

/-- Several assignments to variables of the current frame. -/
def assignAll (stack : CallStack) (assignments : List (String × Value)) : CallStack :=
  assignments.foldl (fun stack assignment => stack.assign assignment.1 assignment.2) stack

theorem assignAll_append (stack : CallStack) (first second : List (String × Value)) :
    stack.assignAll (first ++ second) = (stack.assignAll first).assignAll second :=
  List.foldl_append

/-- Only the current frame is assigned. -/
theorem assignAll_eq (stack : CallStack) (assignments : List (String × Value)) :
    stack.assignAll assignments = { stack with
      current :=
        assignments.foldl (fun frame binding => frame.set binding.1 binding.2) stack.current } := by
  induction assignments generalizing stack with
  | nil => rfl
  | cons assignment rest ih => exact ih (stack.assign assignment.1 assignment.2)

end CallStack

/-- Assignments are those of a first part, and those of the part that goes on from it. -/
theorem Outcome.Leaves.andThen_seen {α β : Type} {outcome : Outcome α}
    {next : α → CallStack → Outcome β} {log : α → CallStack → List (String × Value)}
    {stack : CallStack} {assignments : List (String × Value)}
    (h : outcome.Leaves (· = stack.assignAll assignments))
    (hnext : ∀ value after, (next value after).Leaves (· = after.assignAll (log value after))) :
    (outcome.andThen next).Leaves (· = stack.assignAll (assignments ++ outcome.seen log)) := by
  cases outcome with
  | done value after =>
    obtain rfl : after = _ := h
    rw [CallStack.assignAll_append]
    exact hnext value _
  | failed error after =>
    rw [seen, List.append_nil]
    exact h
  | outOfFuel => trivial

/-- An execution makes its assignments one after the other, and changes nothing else. -/
theorem exec_assignments (fuel : Nat) (stmt : Stmt) (stack : CallStack) :
    (exec fuel stmt stack).Leaves (· = stack.assignAll (stmt.assignments fuel stack)) := by
  induction fuel generalizing stmt stack with
  | zero => trivial
  | succ fuel ih =>
    -- Expressions assign nothing in this frame.
    have hexpr (expr : Expr) : (eval fuel expr stack).Leaves (· = stack.assignAll []) :=
      (evaluation_leaves fuel).eval expr stack
    cases stmt with
    | assign name value => exact (hexpr value).andThen_seen fun result after => rfl
    | seq first second => exact (ih first stack).andThen_seen fun _ after => ih second after
    | ifThen condition body =>
      refine (hexpr condition).andThen_seen fun judged after => ?_
      cases judged.truthy with
      | true => exact ih body after
      | false => rfl
    | ifElse condition body alternative =>
      refine (hexpr condition).andThen_seen fun judged after => ?_
      cases judged.truthy with
      | true => exact ih body after
      | false => exact ih alternative after
    | loop condition body =>
      refine (hexpr condition).andThen_seen fun judged after => ?_
      cases judged.truthy with
      | true => exact (ih body after).andThen_seen fun _ => ih (.loop condition body)
      | false => rfl

/-- A function that runs in the current frame assigns there what its body does. -/
theorem runFunction_assignments (fuel : Nat) (function : FunctionDef) (stack : CallStack) :
    (runFunction fuel function stack).Leaves
      (· = stack.assignAll (function.assignments fuel stack)) := by
  cases fuel with
  | zero => trivial
  | succ fuel =>
    unfold runFunction FunctionDef.assignments
    cases function.body with
    | none => exact (evaluation_leaves fuel).eval function.result stack
    | some body =>
      have hrun : ((exec fuel body stack).andThen fun _ => eval fuel function.result).Leaves
          (· = stack.assignAll
            (body.assignments fuel stack ++ (exec fuel body stack).seen fun _ _ => [])) :=
        (exec_assignments fuel body stack).andThen_seen fun _ after =>
          (evaluation_leaves fuel).eval function.result after
      have hnone : ((exec fuel body stack).seen fun _ _ => ([] : List (String × Value))) = [] := by
        cases exec fuel body stack <;> rfl
      rw [hnone, List.append_nil] at hrun
      exact hrun

/-! ## Operations -/

namespace CallStack

/-- What can be done to a call stack from outside. -/
inductive Operation where
  | assign (name : String) (value : Value)
  | resolve (name : String)
  /-- Enter a frame in which variables were set. -/
  | enter (function : String) (settings : List (String × Value))
  | leave
  | eval (expr : Expr)
  | exec (stmt : Stmt)
  | call (function : FunctionDef) (args : List Value)
  /-- Run a function in the current frame. -/
  | run (function : FunctionDef)

/-- The frames, the current one first. -/
def frames (stack : CallStack) : List Frame :=
  stack.current :: stack.callers

namespace Operation

/-- The stack behind an operation, if it ends within the fuel. -/
def after? (operation : Operation) (fuel : Nat) (stack : CallStack) : Option CallStack :=
  match operation with
  | .assign name value => some (stack.assign name value)
  | .resolve _ => some stack
  | .enter function settings =>
    match stack.enter function (.ofList settings) with
    | .ok entered => some entered
    | .error _ => some stack
  | .leave => some stack.leave.2
  | .eval expr => (WhileLang.eval fuel expr stack).stack?
  | .exec stmt => (WhileLang.exec fuel stmt stack).stack?
  | .call function args => (callFunction fuel function args stack).stack?
  | .run function => (runFunction fuel function stack).stack?

/-- Logs in which the current frame was assigned more. -/
def logMore (assignments : List (String × Value)) :
    List (List (String × Value)) → List (List (String × Value))
  | [] => []
  | log :: logs => (log ++ assignments) :: logs

/--
The logs behind an operation, one for each frame.  A frame that is entered has a log of its own,
which is dropped when the frame is left; at the bottom a new log is begun.
-/
def logs (operation : Operation) (fuel : Nat) (stack : CallStack)
    (logs : List (List (String × Value))) : List (List (String × Value)) :=
  match operation with
  | .assign name value => logMore [(name, value)] logs
  | .enter function settings =>
    match stack.enter function (.ofList settings) with
    | .ok _ => settings :: logs
    | .error _ => logs
  | .leave =>
    match logs with
    | [] => []
    | [_] => [[]]
    | _ :: callers => callers
  | .exec stmt => logMore (stmt.assignments fuel stack) logs
  | .run function => logMore (function.assignments fuel stack) logs
  | .resolve _ => logs
  | .eval _ => logs
  | .call _ _ => logs

end Operation

/-- Operations one after the other, each of which ends, with the stack and the logs behind them. -/
inductive History (start : CallStack) :
    List Operation → CallStack → List (List (String × Value)) → Prop where
  | start : History start [] start [[]]
  | perform {operations : List Operation} {stack after : CallStack}
      {logs : List (List (String × Value))} (h : History start operations stack logs)
      (operation : Operation) (fuel : Nat) (hafter : operation.after? fuel stack = some after) :
      History start (operations ++ [operation]) after (operation.logs fuel stack logs)

/-! ## What is kept -/

/-- A stack within its limit, with a log for every frame. -/
structure IsLogged (stack : CallStack) (maxDepth : Nat) (logs : List (List (String × Value))) :
    Prop where
  limit : stack.maxDepth = maxDepth
  depth_le : stack.depth ≤ maxDepth + 1
  frames : List.Forall₂ Frame.Holds stack.frames logs

namespace IsLogged

variable {stack after : CallStack} {maxDepth : Nat} {logs : List (List (String × Value))}

theorem new (program : Program) (maxDepth : Nat) :
    (new program maxDepth).IsLogged maxDepth [[]] where
  limit := rfl
  depth_le := Nat.le_add_left 1 maxDepth
  frames := .cons Frame.holds_empty .nil

theorem assignAll (h : stack.IsLogged maxDepth logs) (assignments : List (String × Value)) :
    (stack.assignAll assignments).IsLogged maxDepth (Operation.logMore assignments logs) := by
  obtain ⟨hlimit, hdepth, hframes⟩ := h
  rw [assignAll_eq]
  cases hframes with
  | cons hcurrent hcallers => exact ⟨hlimit, hdepth, .cons (hcurrent.setAll assignments) hcallers⟩

/-- A frame can be entered as long as the stack stays within its limit. -/
theorem enter (h : stack.IsLogged maxDepth logs) {function : String}
    {settings : List (String × Value)}
    (henter : stack.enter function (.ofList settings) = .ok after) :
    after.IsLogged maxDepth (settings :: logs) := by
  have hroom := enter_isOk_iff.1 ⟨after, henter⟩
  unfold CallStack.enter at henter
  split at henter
  · cases henter
  · cases henter
    refine ⟨h.limit, ?_, .cons (Frame.holds_ofList settings) h.frames⟩
    rw [h.limit] at hroom
    exact Nat.succ_le_succ hroom

/-- A frame is left to the one below, or to an empty one at the bottom. -/
theorem leave (h : stack.IsLogged maxDepth logs) (fuel : Nat) :
    stack.leave.2.IsLogged maxDepth (Operation.leave.logs fuel stack logs) := by
  obtain ⟨program, current, callers, limit⟩ := stack
  obtain ⟨hlimit, hdepth, hframes⟩ := h
  cases hframes with
  | cons hcurrent hcallers =>
    cases hcallers with
    | nil => exact ⟨hlimit, hdepth, .cons Frame.holds_empty .nil⟩
    | cons hcaller hcallers =>
      exact ⟨hlimit, Nat.le_of_succ_le hdepth, .cons hcaller hcallers⟩

/-- One operation keeps the limit and the logs, whether it fails or not. -/
theorem perform (h : stack.IsLogged maxDepth logs) {operation : Operation} {fuel : Nat}
    (hafter : operation.after? fuel stack = some after) :
    after.IsLogged maxDepth (operation.logs fuel stack logs) := by
  cases operation with
  | assign name value =>
    cases hafter
    exact h.assignAll [(name, value)]
  | resolve name =>
    cases hafter
    exact h
  | enter function settings =>
    unfold Operation.after? at hafter
    unfold Operation.logs
    cases henter : stack.enter function (.ofList settings) with
    | ok entered =>
      simp only [henter, Option.some.injEq] at hafter ⊢
      exact hafter ▸ h.enter henter
    | error error =>
      simp only [henter, Option.some.injEq] at hafter ⊢
      exact hafter ▸ h
  | leave =>
    cases hafter
    exact h.leave fuel
  | eval expr =>
    obtain rfl := ((evaluation_leaves fuel).eval expr stack).of_stack? hafter
    exact h
  | exec stmt =>
    obtain rfl := (exec_assignments fuel stmt stack).of_stack? hafter
    exact h.assignAll _
  | call function args =>
    obtain rfl := ((evaluation_leaves fuel).callFunction function args stack).of_stack? hafter
    exact h
  | run function =>
    obtain rfl := (runFunction_assignments fuel function stack).of_stack? hafter
    exact h.assignAll _

end IsLogged

/-- Every history keeps what holds at its start. -/
theorem History.isLogged {start stack : CallStack} {operations : List Operation}
    {logs : List (List (String × Value))} {maxDepth : Nat}
    (h : start.History operations stack logs) (hstart : start.IsLogged maxDepth [[]]) :
    stack.IsLogged maxDepth logs := by
  induction h with
  | start => exact hstart
  | perform _ operation fuel hafter ih => exact ih.perform hafter

/--
After any operations on a new call stack, there is at least one frame and there are at most as many
as the limit allows.  Every frame holds exactly what its log says, with no name bound twice.  Where
only the bottom frame is there, leaving it returns it, and leaves an empty one.
-/
theorem invariant_of_history {program : Program} {maxDepth : Nat} {start stack : CallStack}
    (hstart : start = new program maxDepth ∨ start = detached maxDepth)
    {operations : List Operation} {logs : List (List (String × Value))}
    (h : start.History operations stack logs) :
    1 ≤ stack.depth ∧ stack.depth ≤ maxDepth + 1 ∧ List.Forall₂ Frame.Holds stack.frames logs ∧
      (stack.depth = 1 → stack.leave.1 = stack.current ∧ stack.leave.2.frames = [.empty] ∧
        ∃ log, logs = [log] ∧ stack.leave.1.Holds log) := by
  have hlogged : stack.IsLogged maxDepth logs := by
    rcases hstart with rfl | rfl
    · exact h.isLogged (.new program maxDepth)
    · exact h.isLogged (.new ⟨[]⟩ maxDepth)
  refine ⟨Nat.le_add_left 1 _, hlogged.depth_le, hlogged.frames, fun hbottom => ?_⟩
  obtain ⟨program, current, callers, limit⟩ := stack
  obtain rfl : callers = [] := List.length_eq_zero_iff.1 (Nat.succ.inj hbottom)
  obtain ⟨-, -, hframes⟩ := hlogged
  cases hframes with
  | cons hcurrent hcallers =>
    cases hcallers
    exact ⟨rfl, rfl, _, rfl, hcurrent⟩

/-- An execution that fails half way, and one frame more that is left than is entered. -/
def unbalancedOperations : List Operation :=
  [.assign "x" (.int 1),
    .exec (.seq (.assign "y" (.int 2)) (.assign "x" (.math .add (.bool true) (.int 1)))),
    .enter "f" [("a", .int 1), ("b", .int 2), ("a", .int 3)], .enter "g" [], .leave, .leave,
    .run ⟨"h", [], some (.seq (.assign "z" (.int 5)) (.assign "z" (.int 6))), .var "z"⟩]

/-- Such a history ends in the bottom frame, which holds what was assigned since it was left. -/
theorem invariant_of_history_unbalanced :
    let stack := (detached 1).assign "z" (.int 6)
    let logs := [[("z", Value.int 5), ("z", Value.int 6)]]
    (detached 1).History unbalancedOperations stack logs ∧
      1 ≤ stack.depth ∧ stack.depth ≤ 1 + 1 ∧ List.Forall₂ Frame.Holds stack.frames logs ∧
        (stack.depth = 1 → stack.leave.1 = stack.current ∧ stack.leave.2.frames = [.empty] ∧
          ∃ log, logs = [log] ∧ stack.leave.1.Holds log) := by
  intro stack logs
  have hbottom : (detached 1).History (unbalancedOperations.take 2)
      (((detached 1).assign "x" (.int 1)).assign "y" (.int 2)) [[("x", .int 1), ("y", .int 2)]] :=
    (History.start.perform _ 0 rfl).perform _ 4 (by decide +kernel)
  have hentered : (detached 1).History (unbalancedOperations.take 3)
      ⟨⟨[]⟩, ⟨[("a", .int 3), ("b", .int 2)]⟩, [⟨[("x", .int 1), ("y", .int 2)]⟩], 1⟩
      [[("a", .int 1), ("b", .int 2), ("a", .int 3)], [("x", .int 1), ("y", .int 2)]] :=
    hbottom.perform (.enter "f" [("a", .int 1), ("b", .int 2), ("a", .int 3)]) 0 (by decide +kernel)
  have hhistory : (detached 1).History unbalancedOperations stack logs :=
    (((hentered.perform (.enter "g" []) 0 rfl).perform .leave 0 rfl).perform .leave 0 rfl).perform
      (.run _) 4 (by decide +kernel)
  have hstart : detached 1 = new ⟨[]⟩ 1 ∨ detached 1 = detached 1 := .inr rfl
  exact ⟨hhistory, invariant_of_history hstart hhistory⟩

end CallStack

end WhileLang
