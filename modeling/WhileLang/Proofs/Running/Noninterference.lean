import WhileLang.Proofs.Running.FrameDiscipline

/-!
# Evaluation sees no more than the values of variables

Of a call stack an evaluation sees the functions, the depth and its limit, and what the names
resolve to in the current frame.  It sees neither the frames below, nor the order of the bindings,
nor whether a variable that is zero was ever assigned.

Main definitions:

- Relation {lit}`CallStack.Alike`: two stacks that an evaluation cannot tell apart.
- Relation {lit}`Outcome.Alike`: the same value or the same failure, in stacks that are alike.

Main results:

- Theorem {lit}`evaluation_alike`: evaluations in stacks that are alike end alike.
-/

namespace WhileLang

/-- Two stacks with the same functions, as deep and as limited, in which all names have the same
value. -/
structure CallStack.Alike (stack other : CallStack) : Prop where
  function (name : String) : stack.function name = other.function name
  maxDepth : stack.maxDepth = other.maxDepth
  depth : stack.depth = other.depth
  resolve (name : String) : stack.resolve name = other.resolve name

/-- Two evaluations end with the same value or the same failure, or both have not ended yet. -/
inductive Outcome.Alike {α : Type} : Outcome α → Outcome α → Prop where
  | done (value : α) {stack other : CallStack} (h : stack.Alike other) :
      Alike (.done value stack) (.done value other)
  | failed (error : SemanticError) {stack other : CallStack} (h : stack.Alike other) :
      Alike (.failed error stack) (.failed error other)
  | outOfFuel : Alike .outOfFuel .outOfFuel

/-! ## Stacks that are alike -/

namespace CallStack.Alike

variable {stack other : CallStack}

/-- Assigning the same value on both sides keeps two stacks alike, in whatever place it ends up. -/
theorem assign (h : stack.Alike other) (name : String) (value : Value) :
    (stack.assign name value).Alike (other.assign name value) where
  function := h.function
  maxDepth := h.maxDepth
  depth := h.depth
  resolve asked := by
    rw [resolve_assign, resolve_assign, h.resolve asked]

/-- A call is refused by both stacks, with the same error, or entered in both. -/
theorem enter (h : stack.Alike other) (function : String) (frame : Frame) :
    (∃ error, stack.enter function frame = .error error ∧ other.enter function frame = .error error)
      ∨ ∃ entered entered', stack.enter function frame = .ok entered
        ∧ other.enter function frame = .ok entered' ∧ entered.Alike entered' := by
  have hdepth : stack.maxDepth < stack.depth ↔ other.maxDepth < other.depth := by
    rw [h.maxDepth, h.depth]
  unfold CallStack.enter
  by_cases hdeep : stack.maxDepth < stack.depth
  · rw [if_pos hdeep, if_pos (hdepth.1 hdeep), h.maxDepth]
    exact .inl ⟨_, rfl, rfl⟩
  · rw [if_neg hdeep, if_neg (hdeep ∘ hdepth.2)]
    refine .inr ⟨_, _, rfl, rfl, h.function, h.maxDepth, ?_, fun _ => rfl⟩
    exact congrArg (· + 1) h.depth

end CallStack.Alike

/-! ## Outcomes that are alike -/

namespace Outcome.Alike

variable {α β : Type} {stack other : CallStack}

theorem andThen {outcome outcome' : Outcome α} {next : α → CallStack → Outcome β}
    (h : outcome.Alike outcome')
    (hnext : ∀ value stack other, stack.Alike other → (next value stack).Alike (next value other)) :
    (outcome.andThen next).Alike (outcome'.andThen next) := by
  cases h with
  | done value hstacks => exact hnext value _ _ hstacks
  | failed error hstacks => exact .failed error hstacks
  | outOfFuel => exact .outOfFuel

theorem ofExcept (result : Except SemanticError α) (h : stack.Alike other) :
    (Outcome.ofExcept result stack).Alike (Outcome.ofExcept result other) := by
  cases result with
  | ok value => exact .done value h
  | error error => exact .failed error h

/-- A call that is left gives the stacks back that it was entered from. -/
theorem leaving {outcome outcome' : Outcome α} (h : outcome.Alike outcome')
    (hstacks : stack.Alike other) (hleft : outcome.leaving.Leaves (· = stack))
    (hleft' : outcome'.leaving.Leaves (· = other)) : outcome.leaving.Alike outcome'.leaving := by
  cases h with
  | done value _ =>
    rw [← show _ = stack from hleft, ← show _ = other from hleft'] at hstacks
    exact .done value hstacks
  | failed error _ =>
    rw [← show _ = stack from hleft, ← show _ = other from hleft'] at hstacks
    exact .failed error hstacks
  | outOfFuel => exact .outOfFuel

end Outcome.Alike

/-! ## Evaluations -/

/-- With a given amount of fuel, evaluations in stacks that are alike end alike. -/
structure EvaluatesAlike (fuel : Nat) : Prop where
  eval (expr : Expr) {stack other : CallStack} (h : stack.Alike other) :
    (eval fuel expr stack).Alike (eval fuel expr other)
  evalArgs (args : List Expr) {stack other : CallStack} (h : stack.Alike other) :
    (evalArgs fuel args stack).Alike (evalArgs fuel args other)
  exec (stmt : Stmt) {stack other : CallStack} (h : stack.Alike other) :
    (exec fuel stmt stack).Alike (exec fuel stmt other)
  runFunction (function : FunctionDef) {stack other : CallStack} (h : stack.Alike other) :
    (runFunction fuel function stack).Alike (runFunction fuel function other)
  callFunction (function : FunctionDef) (args : List Value) {stack other : CallStack}
    (h : stack.Alike other) :
    (callFunction fuel function args stack).Alike (callFunction fuel function args other)

namespace EvaluatesAlike

variable {fuel : Nat} {stack other : CallStack}

theorem eval_succ (h : EvaluatesAlike fuel) (expr : Expr) (hstacks : stack.Alike other) :
    (WhileLang.eval (fuel + 1) expr stack).Alike (WhileLang.eval (fuel + 1) expr other) := by
  -- Both operands are evaluated whatever the operator, and then their values are combined.
  have hboth (left right : Expr) (combine : Value → Value → Except SemanticError Value) :
      ((WhileLang.eval fuel left stack).andThen fun a stack =>
          (WhileLang.eval fuel right stack).andThen fun b stack =>
            .ofExcept (combine a b) stack).Alike
        ((WhileLang.eval fuel left other).andThen fun a stack =>
          (WhileLang.eval fuel right stack).andThen fun b stack =>
            .ofExcept (combine a b) stack) := by
    refine (h.eval left hstacks).andThen fun a _ _ hafter => ?_
    exact (h.eval right hafter).andThen fun b _ _ hafter => .ofExcept (combine a b) hafter
  cases expr with
  | literal value => exact .done value hstacks
  | var name =>
    show Outcome.Alike (.done (stack.resolve name) stack) (.done (other.resolve name) other)
    rw [hstacks.resolve name]
    exact .done _ hstacks
  | math op left right => exact hboth left right (applyMath op)
  | compare op left right => exact hboth left right (applyCompare op)
  | logic op left right => exact hboth left right fun a b => .ok (applyLogic op a b)
  | not operand =>
    exact (h.eval operand hstacks).andThen fun a _ _ hafter => .done _ hafter
  | call name args =>
    refine (h.evalArgs args hstacks).andThen fun values stack other hafter => ?_
    rw [hafter.function name]
    cases other.function name with
    | error error => exact .failed error hafter
    | ok function => exact h.callFunction function values hafter

theorem evalArgs_succ (h : EvaluatesAlike fuel) (args : List Expr) (hstacks : stack.Alike other) :
    (WhileLang.evalArgs (fuel + 1) args stack).Alike
      (WhileLang.evalArgs (fuel + 1) args other) := by
  cases args with
  | nil => exact .done [] hstacks
  | cons arg rest =>
    refine (h.eval arg hstacks).andThen fun value _ _ hafter => ?_
    exact (h.evalArgs rest hafter).andThen fun values _ _ hafter => .done _ hafter

theorem exec_succ (h : EvaluatesAlike fuel) (stmt : Stmt) (hstacks : stack.Alike other) :
    (WhileLang.exec (fuel + 1) stmt stack).Alike (WhileLang.exec (fuel + 1) stmt other) := by
  cases stmt with
  | assign name value =>
    exact (h.eval value hstacks).andThen fun result _ _ hafter =>
      .done () (hafter.assign name result)
  | seq first second =>
    exact (h.exec first hstacks).andThen fun _ _ _ hafter => h.exec second hafter
  | ifThen condition body =>
    refine (h.eval condition hstacks).andThen fun judged _ _ hafter => ?_
    cases judged.truthy with
    | true => exact h.exec body hafter
    | false => exact .done () hafter
  | ifElse condition body alternative =>
    refine (h.eval condition hstacks).andThen fun judged _ _ hafter => ?_
    cases judged.truthy with
    | true => exact h.exec body hafter
    | false => exact h.exec alternative hafter
  | loop condition body =>
    refine (h.eval condition hstacks).andThen fun judged _ _ hafter => ?_
    cases judged.truthy with
    | true => exact (h.exec body hafter).andThen fun _ _ _ hafter => h.exec _ hafter
    | false => exact .done () hafter

theorem runFunction_succ (h : EvaluatesAlike fuel) (function : FunctionDef)
    (hstacks : stack.Alike other) :
    (WhileLang.runFunction (fuel + 1) function stack).Alike
      (WhileLang.runFunction (fuel + 1) function other) := by
  unfold WhileLang.runFunction
  cases function.body with
  | none => exact h.eval function.result hstacks
  | some body =>
    exact (h.exec body hstacks).andThen fun _ _ _ hafter => h.eval function.result hafter

theorem callFunction_succ (h : EvaluatesAlike fuel) (function : FunctionDef) (args : List Value)
    (hstacks : stack.Alike other) :
    (WhileLang.callFunction (fuel + 1) function args stack).Alike
      (WhileLang.callFunction (fuel + 1) function args other) := by
  have hleft := (evaluation_leaves (fuel + 1)).callFunction function args stack
  have hleft' := (evaluation_leaves (fuel + 1)).callFunction function args other
  unfold WhileLang.callFunction at hleft hleft' ⊢
  by_cases harity : args.length = function.params.length
  · rw [if_pos harity] at hleft hleft' ⊢
    rw [if_pos harity]
    rcases hstacks.enter function.name (function.frame args) with
      ⟨error, henter, henter'⟩ | ⟨entered, entered', henter, henter', hentered⟩
    · rw [henter, henter']
      exact .failed error hstacks
    · rw [henter] at hleft ⊢
      rw [henter'] at hleft' ⊢
      exact (h.runFunction function hentered).leaving hstacks hleft hleft'
  · rw [if_neg harity, if_neg harity]
    exact .failed _ hstacks

end EvaluatesAlike

theorem evaluatesAlike (fuel : Nat) : EvaluatesAlike fuel := by
  induction fuel with
  | zero => exact ⟨fun _ _ _ _ => .outOfFuel, fun _ _ _ _ => .outOfFuel, fun _ _ _ _ => .outOfFuel,
      fun _ _ _ _ => .outOfFuel, fun _ _ _ _ _ => .outOfFuel⟩
  | succ fuel ih => exact ⟨fun expr _ _ => ih.eval_succ expr, fun args _ _ => ih.evalArgs_succ args,
      fun stmt _ _ => ih.exec_succ stmt, fun function _ _ => ih.runFunction_succ function,
      fun function args _ _ => ih.callFunction_succ function args⟩

/--
Noninterference.  In stacks that are alike, an expression and a statement end with the same value,
with the same failure, or not at all, and leave stacks behind that are alike again.
-/
theorem evaluation_alike {stack other : CallStack} (h : stack.Alike other) (fuel : Nat) :
    (∀ expr, (eval fuel expr stack).Alike (eval fuel expr other)) ∧
      ∀ stmt, (exec fuel stmt stack).Alike (exec fuel stmt other) :=
  ⟨fun expr => (evaluatesAlike fuel).eval expr h, fun stmt => (evaluatesAlike fuel).exec stmt h⟩

/-- A function to call from the stacks below. -/
def doubling : Program where
  functions := [{ name := "double", params := ["n"], body := none,
                  result := .math .add (.var "n") (.var "n") }]

/-- A stack with two variables. -/
def doublingStack : CallStack where
  program := doubling
  current := ⟨[("x", .int 3), ("b", .bool true)]⟩
  callers := [.empty]
  maxDepth := 5

/-- The same variables in another order, with one that is zero, over another caller. -/
def rearrangedStack : CallStack where
  program := doubling
  current := ⟨[("z", .int 0), ("b", .bool true), ("x", .int 3)]⟩
  callers := [⟨[("x", .int 7)]⟩]
  maxDepth := 5

theorem evaluation_alike_rearranged :
    doublingStack.Alike rearrangedStack ∧
      (eval 10 (.call "double" [.var "x"]) doublingStack).Alike
        (eval 10 (.call "double" [.var "x"]) rearrangedStack) ∧
      (exec 10 (.assign "z" (.call "double" [.var "z"])) doublingStack).Alike
        (exec 10 (.assign "z" (.call "double" [.var "z"])) rearrangedStack) := by
  have h : doublingStack.Alike rearrangedStack := by
    refine ⟨fun _ => rfl, rfl, rfl, fun name => ?_⟩
    by_cases hx : name = "x"
    · subst hx
      rfl
    · by_cases hz : name = "z"
      · subst hz
        rfl
      · simp only [CallStack.resolve, Frame.get?, doublingStack, rearrangedStack, List.lookup_cons,
          beq_eq_false_iff_ne.2 hx, beq_eq_false_iff_ne.2 hz]
  exact ⟨h, (evaluation_alike h 10).1 _, (evaluation_alike h 10).2 _⟩

end WhileLang
