import WhileLang.Proofs.Running.Origins

/-!
# Fuel and the limit of nested calls

With more fuel and a greater limit an evaluation does the same, and goes on where it would have been
cut short.  So the fuel does not matter for how a run ends, and the limit only for whether it ends
because the limit is exceeded.

Main definitions:

- Relation {lit}`Outcome.GoesOn`: an evaluation ends as with fewer resources, unless it was cut
  short there.
- Relation {lit}`Program.Ends`: how a run ends.
- Relation {lit}`Program.AttemptsCall`: a run comes to a call while a number of calls are active.

Main results:

- Theorem {lit}`evaluation_goesOn`: more fuel and a greater limit only let evaluations go on.
- Theorem {lit}`Program.Ends.unique`: a run ends in one way.
- Theorem {lit}`Program.limit_onlyCutsShort`: what the limit of nested calls can do to a run.
-/

namespace WhileLang

open Relation (ReflTransGen)

/-! ## Greater limits -/

namespace CallStack

variable {stack : CallStack} {limit : Nat}

/-- The same frames under another limit. -/
def withLimit (limit : Nat) (stack : CallStack) : CallStack :=
  { stack with maxDepth := limit }

theorem leave_withLimit (limit : Nat) (stack : CallStack) :
    (stack.withLimit limit).leave = (stack.leave.1, stack.leave.2.withLimit limit) := by
  unfold leave withLimit
  cases stack.callers <;> rfl

theorem maxDepth_leave (stack : CallStack) : stack.leave.2.maxDepth = stack.maxDepth := by
  unfold leave
  cases stack.callers <;> rfl

/-- A call that is entered is also entered under a greater limit. -/
theorem enter_withLimit {entered : CallStack} {function : String} {frame : Frame}
    (h : stack.enter function frame = .ok entered) (hlimit : stack.maxDepth ≤ limit) :
    (stack.withLimit limit).enter function frame = .ok (entered.withLimit limit)
      ∧ entered.maxDepth ≤ limit := by
  unfold enter at h
  split at h
  · cases h
  · rename_i hdepth
    cases h
    refine ⟨if_neg ?_, hlimit⟩
    simp only [depth, withLimit] at hdepth ⊢
    omega

end CallStack

/-- An evaluation ends as one with less fuel and a smaller limit, unless that one was cut short. -/
inductive Outcome.GoesOn {α : Type} (limit : Nat) : Outcome α → Outcome α → Prop where
  | done (value : α) {stack : CallStack} (h : stack.maxDepth ≤ limit) :
      GoesOn limit (.done value stack) (.done value (stack.withLimit limit))
  | failed (error : SemanticError) {stack : CallStack} (h : stack.maxDepth ≤ limit) :
      GoesOn limit (.failed error stack) (.failed error (stack.withLimit limit))
  | refused {function : String} {bound : Nat} {stack : CallStack} (h : stack.maxDepth < limit)
      (other : Outcome α) : GoesOn limit (.failed (.callDepthExceeded function bound) stack) other
  | outOfFuel (other : Outcome α) : GoesOn limit .outOfFuel other

namespace Outcome.GoesOn

variable {α β : Type} {limit : Nat}

theorem andThen {outcome other : Outcome α} {next next' : α → CallStack → Outcome β}
    (h : outcome.GoesOn limit other)
    (hnext : ∀ value stack, stack.maxDepth ≤ limit →
      (next value stack).GoesOn limit (next' value (stack.withLimit limit))) :
    (outcome.andThen next).GoesOn limit (other.andThen next') := by
  cases h with
  | done value hlimit => exact hnext value _ hlimit
  | failed error hlimit => exact .failed error hlimit
  | refused hlimit => exact .refused hlimit _
  | outOfFuel => exact .outOfFuel _

theorem ofExcept (result : Except SemanticError α) {stack : CallStack}
    (h : stack.maxDepth ≤ limit) :
    (Outcome.ofExcept result stack).GoesOn limit
      (Outcome.ofExcept result (stack.withLimit limit)) := by
  cases result with
  | ok value => exact .done value h
  | error error => exact .failed error h

theorem leaving {outcome other : Outcome α} (h : outcome.GoesOn limit other) :
    outcome.leaving.GoesOn limit other.leaving := by
  cases h with
  | @done value stack hlimit =>
    simp only [Outcome.leaving, stack.leave_withLimit]
    exact .done value (stack.maxDepth_leave ▸ hlimit)
  | @failed error stack hlimit =>
    simp only [Outcome.leaving, stack.leave_withLimit]
    exact .failed error (stack.maxDepth_leave ▸ hlimit)
  | @refused _ _ stack hlimit => exact .refused (stack.maxDepth_leave ▸ hlimit) _
  | outOfFuel => exact .outOfFuel _

end Outcome.GoesOn

/-! ## Evaluations -/

/-- Evaluations with some fuel go on with more fuel under a greater limit. -/
structure EvaluatesOn (fuel more limit : Nat) : Prop where
  eval (expr : Expr) {stack : CallStack} (h : stack.maxDepth ≤ limit) :
    (eval fuel expr stack).GoesOn limit (eval more expr (stack.withLimit limit))
  evalArgs (args : List Expr) {stack : CallStack} (h : stack.maxDepth ≤ limit) :
    (evalArgs fuel args stack).GoesOn limit (evalArgs more args (stack.withLimit limit))
  exec (stmt : Stmt) {stack : CallStack} (h : stack.maxDepth ≤ limit) :
    (exec fuel stmt stack).GoesOn limit (exec more stmt (stack.withLimit limit))
  runFunction (function : FunctionDef) {stack : CallStack} (h : stack.maxDepth ≤ limit) :
    (runFunction fuel function stack).GoesOn limit
      (runFunction more function (stack.withLimit limit))
  callFunction (function : FunctionDef) (args : List Value) {stack : CallStack}
    (h : stack.maxDepth ≤ limit) :
    (callFunction fuel function args stack).GoesOn limit
      (callFunction more function args (stack.withLimit limit))

namespace EvaluatesOn

variable {fuel more limit : Nat} {stack : CallStack}

theorem eval_succ (h : EvaluatesOn fuel more limit) (expr : Expr)
    (hlimit : stack.maxDepth ≤ limit) :
    (WhileLang.eval (fuel + 1) expr stack).GoesOn limit
      (WhileLang.eval (more + 1) expr (stack.withLimit limit)) := by
  -- Both operands are evaluated whatever the operator, and then their values are combined.
  have hboth (left right : Expr) (combine : Value → Value → Except SemanticError Value) :
      ((WhileLang.eval fuel left stack).andThen fun a stack =>
          (WhileLang.eval fuel right stack).andThen fun b stack =>
            .ofExcept (combine a b) stack).GoesOn limit
        ((WhileLang.eval more left (stack.withLimit limit)).andThen fun a stack =>
          (WhileLang.eval more right stack).andThen fun b stack =>
            .ofExcept (combine a b) stack) := by
    refine (h.eval left hlimit).andThen fun a _ hafter => ?_
    exact (h.eval right hafter).andThen fun b _ hafter => .ofExcept (combine a b) hafter
  cases expr with
  | literal value => exact .done value hlimit
  | var name => exact .done _ hlimit
  | math op left right => exact hboth left right (applyMath op)
  | compare op left right => exact hboth left right (applyCompare op)
  | logic op left right => exact hboth left right fun a b => .ok (applyLogic op a b)
  | not operand => exact (h.eval operand hlimit).andThen fun a _ hafter => .done _ hafter
  | call name args =>
    refine (h.evalArgs args hlimit).andThen fun values after hafter => ?_
    have hsame : (after.withLimit limit).function name = after.function name := rfl
    rw [hsame]
    cases after.function name with
    | error error => exact .failed error hafter
    | ok function => exact h.callFunction function values hafter

theorem evalArgs_succ (h : EvaluatesOn fuel more limit) (args : List Expr)
    (hlimit : stack.maxDepth ≤ limit) :
    (WhileLang.evalArgs (fuel + 1) args stack).GoesOn limit
      (WhileLang.evalArgs (more + 1) args (stack.withLimit limit)) := by
  cases args with
  | nil => exact .done [] hlimit
  | cons arg rest =>
    refine (h.eval arg hlimit).andThen fun value _ hafter => ?_
    exact (h.evalArgs rest hafter).andThen fun values _ hafter => .done _ hafter

theorem exec_succ (h : EvaluatesOn fuel more limit) (stmt : Stmt)
    (hlimit : stack.maxDepth ≤ limit) :
    (WhileLang.exec (fuel + 1) stmt stack).GoesOn limit
      (WhileLang.exec (more + 1) stmt (stack.withLimit limit)) := by
  cases stmt with
  | assign name value =>
    exact (h.eval value hlimit).andThen fun result after hafter => .done () hafter
  | seq first second =>
    exact (h.exec first hlimit).andThen fun _ _ hafter => h.exec second hafter
  | ifThen condition body =>
    refine (h.eval condition hlimit).andThen fun judged _ hafter => ?_
    cases judged.truthy with
    | true => exact h.exec body hafter
    | false => exact .done () hafter
  | ifElse condition body alternative =>
    refine (h.eval condition hlimit).andThen fun judged _ hafter => ?_
    cases judged.truthy with
    | true => exact h.exec body hafter
    | false => exact h.exec alternative hafter
  | loop condition body =>
    refine (h.eval condition hlimit).andThen fun judged _ hafter => ?_
    cases judged.truthy with
    | true => exact (h.exec body hafter).andThen fun _ _ hafter => h.exec _ hafter
    | false => exact .done () hafter

theorem runFunction_succ (h : EvaluatesOn fuel more limit) (function : FunctionDef)
    (hlimit : stack.maxDepth ≤ limit) :
    (WhileLang.runFunction (fuel + 1) function stack).GoesOn limit
      (WhileLang.runFunction (more + 1) function (stack.withLimit limit)) := by
  unfold WhileLang.runFunction
  cases function.body with
  | none => exact h.eval function.result hlimit
  | some body =>
    exact (h.exec body hlimit).andThen fun _ _ hafter => h.eval function.result hafter

theorem callFunction_succ (h : EvaluatesOn fuel more limit) (function : FunctionDef)
    (args : List Value) (hlimit : stack.maxDepth ≤ limit) :
    (WhileLang.callFunction (fuel + 1) function args stack).GoesOn limit
      (WhileLang.callFunction (more + 1) function args (stack.withLimit limit)) := by
  unfold WhileLang.callFunction
  split
  · cases henter : stack.enter function.name (function.frame args) with
    | ok entered =>
      obtain ⟨henter', hentered⟩ := CallStack.enter_withLimit henter hlimit
      rw [henter']
      exact (h.runFunction function hentered).leaving
    | error error =>
      obtain ⟨rfl, hdepth⟩ := CallStack.enter_eq_error henter
      -- Under the very same limit, the call is refused again.
      rcases hlimit.lt_or_eq with hless | rfl
      · exact .refused hless _
      · have hsame : stack.withLimit stack.maxDepth = stack := rfl
        rw [hsame, henter]
        exact .failed _ hlimit
  · exact .failed _ hlimit

end EvaluatesOn

/-- More fuel and a greater limit only let evaluations go on. -/
theorem evaluation_goesOn {fuel more : Nat} (limit : Nat) (h : fuel ≤ more) :
    EvaluatesOn fuel more limit := by
  induction fuel generalizing more with
  | zero => exact ⟨fun _ _ _ => .outOfFuel _, fun _ _ _ => .outOfFuel _, fun _ _ _ => .outOfFuel _,
      fun _ _ _ => .outOfFuel _, fun _ _ _ _ => .outOfFuel _⟩
  | succ fuel ih =>
    obtain ⟨more, rfl⟩ := Nat.exists_eq_add_one_of_ne_zero (Nat.ne_zero_of_lt h)
    have hless := ih (Nat.le_of_succ_le_succ h)
    exact ⟨fun expr _ => hless.eval_succ expr, fun args _ => hless.evalArgs_succ args,
      fun stmt _ => hless.exec_succ stmt, fun function _ => hless.runFunction_succ function,
      fun function args _ => hless.callFunction_succ function args⟩

/-- A statement that ends does so in the same way with more fuel. -/
theorem exec_of_le {fuel more : Nat} {stmt : Stmt} {stack : CallStack} (hle : fuel ≤ more)
    (h : exec fuel stmt stack ≠ .outOfFuel) : exec more stmt stack = exec fuel stmt stack := by
  have hgoesOn : (exec fuel stmt stack).GoesOn stack.maxDepth (exec more stmt stack) :=
    (evaluation_goesOn stack.maxDepth hle).exec stmt (Nat.le_refl stack.maxDepth)
  have hbelow := (evaluation_leaves fuel).exec stmt stack
  generalize exec fuel stmt stack = outcome, exec more stmt stack = other at *
  cases hgoesOn with
  | done | failed =>
    obtain ⟨frame, rfl⟩ := hbelow
    rfl
  | refused hless =>
    obtain ⟨frame, rfl⟩ := hbelow
    exact (Nat.lt_irrefl _ hless).elim
  | outOfFuel => exact (h rfl).elim

/-! ## Runs -/

namespace Program

variable {program : Program}

/-- A run with more fuel and a greater limit ends as before, unless the limit was exceeded. -/
theorem run?_goesOn {maxDepth limit fuel more : Nat} {ending : Except SemanticError Execution}
    (h : program.run? maxDepth fuel = some ending) (hfuel : fuel ≤ more)
    (hlimit : maxDepth ≤ limit) :
    program.run? limit more = some ending
      ∨ maxDepth < limit
        ∧ ∃ function bound, ending = .error (.callDepthExceeded function bound) := by
  have hstart : (CallStack.new program limit).function entryPoint
      = (CallStack.new program maxDepth).function entryPoint := rfl
  simp only [run?, hstart] at h ⊢
  cases hmain : (CallStack.new program maxDepth).function entryPoint with
  | error error =>
    rw [hmain] at h
    exact .inl h
  | ok main =>
    rw [hmain] at h
    have hgoesOn : (runFunction fuel main (.new program maxDepth)).GoesOn limit
        (runFunction more main (.new program limit)) :=
      (evaluation_goesOn limit hfuel).runFunction main hlimit
    simp only at h ⊢
    cases houtcome : runFunction fuel main (.new program maxDepth) with
    | outOfFuel =>
      rw [houtcome] at h
      cases h
    | done value stack =>
      rw [houtcome] at h hgoesOn
      cases h
      generalize runFunction more main (.new program limit) = other at hgoesOn
      cases hgoesOn with
      | done =>
        rw [Outcome.execution?, stack.leave_withLimit]
        exact .inl rfl
    | failed error stack =>
      have hbelow := (evaluation_leaves fuel).runFunction main (.new program maxDepth)
      rw [houtcome] at h hgoesOn hbelow
      cases h
      obtain ⟨frame, rfl⟩ := hbelow
      generalize runFunction more main (.new program limit) = other at hgoesOn
      cases hgoesOn with
      | failed => exact .inl rfl
      | refused hless => exact .inr ⟨hless, _, _, rfl⟩

/-- A run ends with an execution or an error, given enough fuel. -/
def Ends (program : Program) (maxDepth : Nat) (ending : Except SemanticError Execution) : Prop :=
  ∃ fuel, program.run? maxDepth fuel = some ending

/-- The fuel does not matter for how a run ends. -/
theorem Ends.unique {maxDepth : Nat} {ending other : Except SemanticError Execution}
    (h : program.Ends maxDepth ending) (h' : program.Ends maxDepth other) : ending = other := by
  obtain ⟨fuel, hfuel⟩ := h
  obtain ⟨fuel', hfuel'⟩ := h'
  have hmore {few more : Nat} {ending : Except SemanticError Execution}
      (hend : program.run? maxDepth few = some ending) (hle : few ≤ more) :
      program.run? maxDepth more = some ending :=
    (run?_goesOn hend hle (Nat.le_refl maxDepth)).resolve_right fun h => Nat.lt_irrefl _ h.1
  have hboth := (hmore hfuel (Nat.le_max_left fuel fuel')).symm.trans
    (hmore hfuel' (Nat.le_max_right fuel fuel'))
  exact Option.some.inj hboth

/-- A function that calls itself a number of times. -/
def countdown : Program where
  functions := [
    { name := "down"
      params := ["n"]
      body := some (.ifThen (.compare .lt (.int 0) (.var "n"))
        (.assign "n" (.call "down" [.math .sub (.var "n") (.int 1)])))
      result := .var "n" },
    { name := "main"
      params := []
      body := some (.assign "x" (.int 7))
      result := .call "down" [.int 2] }]

end Program

end WhileLang
