import Mathlib.Order.Filter.AtTopBot.Basic
import WhileLang.Proofs.Running.Limits
import WhileLang.Proofs.Syntax.Nesting

/-!
# Runs of nested chains

However chains are nested, their statements are executed one after the other.  Nesting only takes
fuel: what an evaluation ends with is what the other program ends with as well, given enough fuel.

Main definitions:

- Function {lit}`execAll`: statements executed one after the other.
- Relation {lit}`Outcome.IsReached`: an evaluation with enough fuel ends with an outcome, over the
  other program.

Main results:

- Theorem {lit}`exists_exec_eq_execAll`: a chain does what its statements do.
- Theorem {lit}`evaluation_renested`: evaluations over programs that differ in nesting only.
- Theorem {lit}`Program.ends_iff_of_leftNested_eq`: runs of such programs end alike.
-/

namespace WhileLang

open Filter (atTop)

/-! ## Statements one after the other -/

/-- Execute statements one after the other. -/
def execAll (fuel : Nat) : List Stmt → CallStack → Outcome Unit
  | [], stack => .done () stack
  | stmt :: rest, stack => (exec fuel stmt stack).andThen fun _ stack => execAll fuel rest stack

theorem execAll_singleton (fuel : Nat) (stmt : Stmt) (stack : CallStack) :
    execAll fuel [stmt] stack = exec fuel stmt stack := by
  unfold execAll execAll
  cases exec fuel stmt stack <;> rfl

theorem execAll_append (fuel : Nat) (first second : List Stmt) (stack : CallStack) :
    execAll fuel (first ++ second) stack
      = (execAll fuel first stack).andThen fun _ stack => execAll fuel second stack := by
  induction first generalizing stack with
  | nil => rfl
  | cons stmt rest ih =>
    rw [List.cons_append, execAll, execAll]
    cases exec fuel stmt stack with
    | done value after => exact ih after
    | failed | outOfFuel => rfl

/-- A chain does what its statements do one after the other, with some more fuel. -/
theorem exists_exec_eq_execAll (stmt : Stmt) : ∃ steps, ∀ fuel stack,
    execAll fuel stmt.flatten stack ≠ .outOfFuel →
      exec (fuel + steps) stmt stack = execAll fuel stmt.flatten stack := by
  induction stmt with
  | seq first second ihf ihs =>
    obtain ⟨few, hfirst⟩ := ihf
    obtain ⟨others, hsecond⟩ := ihs
    refine ⟨few + others + 1, fun fuel stack h => ?_⟩
    rw [Stmt.flatten, execAll_append] at h ⊢
    have hends : execAll fuel first.flatten stack ≠ .outOfFuel := by
      intro hout
      rw [hout] at h
      exact h rfl
    have hstart : exec (fuel + (few + others)) first stack = execAll fuel first.flatten stack :=
      (exec_of_le (by omega) (by rwa [hfirst fuel stack hends])).trans (hfirst fuel stack hends)
    have hstep : exec (fuel + (few + others + 1)) (.seq first second) stack
        = (exec (fuel + (few + others)) first stack).andThen fun _ stack =>
            exec (fuel + (few + others)) second stack := rfl
    rw [hstep, hstart]
    cases hdone : execAll fuel first.flatten stack with
    | done value after =>
      rw [hdone] at h
      have hrest : execAll fuel second.flatten after ≠ .outOfFuel := h
      exact (exec_of_le (by omega) (by rwa [hsecond fuel after hrest])).trans
        (hsecond fuel after hrest)
    | failed | outOfFuel => rfl
  | assign | ifThen | ifElse | loop =>
    refine ⟨0, fun fuel stack _ => ?_⟩
    rw [Stmt.flatten_eq_singleton rfl, execAll_singleton]
    rfl

/-! ## Stacks over another program -/

namespace CallStack

/-- The same frames over another program. -/
def withProgram (other : Program) (stack : CallStack) : CallStack :=
  { stack with program := other }

variable (other : Program) (stack : CallStack)

theorem enter_withProgram (function : String) (frame : Frame) :
    (stack.withProgram other).enter function frame
      = (stack.enter function frame).map (withProgram other) := by
  unfold enter
  rw [apply_ite (Except.map (withProgram other))]
  rfl

theorem program_enter {entered : CallStack} {function : String} {frame : Frame}
    (h : stack.enter function frame = .ok entered) : entered.program = stack.program := by
  unfold enter at h
  split at h
  · cases h
  · cases h
    rfl

theorem leave_withProgram :
    (stack.withProgram other).leave = (stack.leave.1, stack.leave.2.withProgram other) := by
  unfold leave withProgram
  cases stack.callers <;> rfl

theorem program_leave : stack.leave.2.program = stack.program := by
  unfold leave
  cases stack.callers <;> rfl

end CallStack

/-! ## Outcomes that are reached -/

/-- With enough fuel, an evaluation ends as the outcome says, over the other program. -/
inductive Outcome.IsReached {α : Type} (program other : Program) (run : Nat → Outcome α) :
    Outcome α → Prop where
  | done {value : α} {stack : CallStack} (hstack : stack.program = program)
      (h : ∀ᶠ fuel in atTop, run fuel = .done value (stack.withProgram other)) :
      IsReached program other run (.done value stack)
  | failed {error : SemanticError} {stack : CallStack} (hstack : stack.program = program)
      (h : ∀ᶠ fuel in atTop, run fuel = .failed error (stack.withProgram other)) :
      IsReached program other run (.failed error stack)
  | outOfFuel : IsReached program other run .outOfFuel

namespace Outcome.IsReached

variable {α β : Type} {program other : Program} {run run' : Nat → Outcome α} {outcome : Outcome α}

/-- What an evaluation reaches is reached by one that does the same. -/
theorem congr (h : outcome.IsReached program other run)
    (hrun : ∀ᶠ fuel in atTop, run' fuel = run fuel) : outcome.IsReached program other run' := by
  cases h with
  | done hstack h => exact .done hstack (hrun.mp (h.mono fun fuel h heq => heq.trans h))
  | failed hstack h => exact .failed hstack (hrun.mp (h.mono fun fuel h heq => heq.trans h))
  | outOfFuel => exact .outOfFuel

/-- What an evaluation reaches is reached by one that does the same with more fuel. -/
theorem later (steps : Nat)
    (hrun : ∀ fuel, run fuel ≠ .outOfFuel → run' (fuel + steps) = run fuel)
    (h : outcome.IsReached program other run) : outcome.IsReached program other run' := by
  have hlater {ending : Outcome α} (hending : ending ≠ .outOfFuel)
      (h : ∀ᶠ fuel in atTop, run fuel = ending) : ∀ᶠ fuel in atTop, run' fuel = ending := by
    rw [← Filter.map_add_atTop_eq_nat steps, Filter.eventually_map]
    exact h.mono fun fuel heq => (hrun fuel (heq.symm ▸ hending)).trans heq
  cases h with
  | done hstack h => exact .done hstack (hlater nofun h)
  | failed hstack h => exact .failed hstack (hlater nofun h)
  | outOfFuel => exact .outOfFuel

theorem succ (h : outcome.IsReached program other fun fuel => run (fuel + 1)) :
    outcome.IsReached program other run :=
  h.later 1 fun _ _ => rfl

/-- What the statements of a chain reach is reached by the chain. -/
theorem exec_of_execAll {outcome : Outcome Unit} {stmt : Stmt} {stack : CallStack}
    (h : outcome.IsReached program other fun fuel => execAll fuel stmt.flatten stack) :
    outcome.IsReached program other fun fuel => exec fuel stmt stack := by
  obtain ⟨steps, hsteps⟩ := exists_exec_eq_execAll stmt
  exact h.later steps fun fuel => hsteps fuel stack

theorem ofDone {value : α} {stack : CallStack} (hstack : stack.program = program) :
    (Outcome.done value stack).IsReached program other fun _ =>
      .done value (stack.withProgram other) :=
  .done hstack (.of_forall fun _ => rfl)

theorem ofFailed {error : SemanticError} {stack : CallStack} (hstack : stack.program = program) :
    (Outcome.failed error stack : Outcome α).IsReached program other fun _ =>
      .failed error (stack.withProgram other) :=
  .failed hstack (.of_forall fun _ => rfl)

theorem andThen {next : α → CallStack → Outcome β} {next' : Nat → α → CallStack → Outcome β}
    (h : outcome.IsReached program other run)
    (hnext : ∀ value stack, stack.program = program →
      (next value stack).IsReached program other fun fuel =>
        next' fuel value (stack.withProgram other)) :
    (outcome.andThen next).IsReached program other fun fuel => (run fuel).andThen (next' fuel) := by
  cases h with
  | done hstack h =>
    refine (hnext _ _ hstack).congr (h.mono fun fuel heq => ?_)
    rw [heq]
    rfl
  | failed hstack h =>
    refine .failed hstack (h.mono fun fuel heq => ?_)
    rw [heq]
    rfl
  | outOfFuel => exact .outOfFuel

theorem ofExcept (result : Except SemanticError α) {stack : CallStack}
    (hstack : stack.program = program) :
    (Outcome.ofExcept result stack).IsReached program other fun _ =>
      Outcome.ofExcept result (stack.withProgram other) := by
  cases result with
  | ok value => exact .ofDone hstack
  | error error => exact .ofFailed hstack

theorem leaving (h : outcome.IsReached program other run) :
    outcome.leaving.IsReached program other fun fuel => (run fuel).leaving := by
  cases h with
  | @done value stack hstack h =>
    refine .done (stack.program_leave.trans hstack) (h.mono fun fuel heq => ?_)
    rw [heq, Outcome.leaving, stack.leave_withProgram]
  | @failed error stack hstack h =>
    refine .failed (stack.program_leave.trans hstack) (h.mono fun fuel heq => ?_)
    rw [heq, Outcome.leaving, stack.leave_withProgram]
  | outOfFuel => exact .outOfFuel

end Outcome.IsReached

/-! ## Evaluations -/

/--
What evaluations end with is reached over the other program.  Blocks are compared with the
statements of the other block, so that the parts of a chain can be compared as well.
-/
structure EvaluatesRenested (program other : Program) (fuel : Nat) : Prop where
  eval (expr : Expr) {stack : CallStack} (h : stack.program = program) :
    (eval fuel expr stack).IsReached program other fun more =>
      eval more expr (stack.withProgram other)
  evalArgs (args : List Expr) {stack : CallStack} (h : stack.program = program) :
    (evalArgs fuel args stack).IsReached program other fun more =>
      evalArgs more args (stack.withProgram other)
  exec {stmt : Stmt} {items : List Stmt}
    (hitems : stmt.flatten.map Stmt.leftNested = items.map Stmt.leftNested) {stack : CallStack}
    (h : stack.program = program) :
    (exec fuel stmt stack).IsReached program other fun more =>
      execAll more items (stack.withProgram other)
  runFunction {function function' : FunctionDef}
    (hsame : function.leftNested = function'.leftNested) {stack : CallStack}
    (h : stack.program = program) :
    (runFunction fuel function stack).IsReached program other fun more =>
      runFunction more function' (stack.withProgram other)
  callFunction {function function' : FunctionDef}
    (hsame : function.leftNested = function'.leftNested) (args : List Value) {stack : CallStack}
    (h : stack.program = program) :
    (callFunction fuel function args stack).IsReached program other fun more =>
      callFunction more function' args (stack.withProgram other)

namespace EvaluatesRenested

variable {program other : Program} {fuel : Nat} {stack : CallStack}

/-- A block does what a block does that differs in the nesting of chains. -/
theorem block (h : EvaluatesRenested program other fuel) {stmt stmt' : Stmt}
    (hsame : stmt.leftNested = stmt'.leftNested) (hstack : stack.program = program) :
    (WhileLang.exec fuel stmt stack).IsReached program other fun more =>
      WhileLang.exec more stmt' (stack.withProgram other) :=
  (h.exec (Stmt.leftNested_eq_iff.1 hsame) hstack).exec_of_execAll

theorem eval_succ (h : EvaluatesRenested program other fuel)
    (hsame : program.leftNested = other.leftNested) (expr : Expr)
    (hstack : stack.program = program) :
    (WhileLang.eval (fuel + 1) expr stack).IsReached program other fun more =>
      WhileLang.eval more expr (stack.withProgram other) := by
  -- Both operands are evaluated whatever the operator, and then their values are combined.
  have hboth (left right : Expr) (combine : Value → Value → Except SemanticError Value) :
      ((WhileLang.eval fuel left stack).andThen fun a stack =>
          (WhileLang.eval fuel right stack).andThen fun b stack =>
            .ofExcept (combine a b) stack).IsReached program other fun more =>
        (WhileLang.eval more left (stack.withProgram other)).andThen fun a stack =>
          (WhileLang.eval more right stack).andThen fun b stack =>
            .ofExcept (combine a b) stack := by
    refine (h.eval left hstack).andThen fun a _ hafter => ?_
    exact (h.eval right hafter).andThen fun b _ hafter => .ofExcept (combine a b) hafter
  refine .succ ?_
  cases expr with
  | literal value => exact .ofDone hstack
  | var name => exact .ofDone hstack
  | math op left right => exact hboth left right (applyMath op)
  | compare op left right => exact hboth left right (applyCompare op)
  | logic op left right => exact hboth left right fun a b => .ok (applyLogic op a b)
  | not operand => exact (h.eval operand hstack).andThen fun a _ hafter => .ofDone hafter
  | call name args =>
    refine (h.evalArgs args hstack).andThen fun values after hafter => ?_
    have hother : (after.withProgram other).function name = other.effective name := rfl
    have hfunction : after.function name = program.effective name := by
      rw [CallStack.function, hafter]
    rw [hother, hfunction]
    rcases Program.effective_of_leftNested_eq hsame name with
      ⟨function, function', heq, heq', hfunctions⟩ | ⟨error, heq, heq'⟩
    · rw [heq, heq']
      exact h.callFunction hfunctions values hafter
    · rw [heq, heq']
      exact .ofFailed hafter

theorem evalArgs_succ (h : EvaluatesRenested program other fuel) (args : List Expr)
    (hstack : stack.program = program) :
    (WhileLang.evalArgs (fuel + 1) args stack).IsReached program other fun more =>
      WhileLang.evalArgs more args (stack.withProgram other) := by
  refine .succ ?_
  cases args with
  | nil => exact .ofDone hstack
  | cons arg rest =>
    refine (h.eval arg hstack).andThen fun value _ hafter => ?_
    exact (h.evalArgs rest hafter).andThen fun values _ hafter => .ofDone hafter

/-- A statement that is no chain does what one does that differs in the nesting of chains. -/
theorem single_succ (h : EvaluatesRenested program other fuel) {stmt item : Stmt}
    (hstmt : stmt.isSeq = false) (hitem : item.leftNested = stmt.leftNested)
    (hstack : stack.program = program) :
    (WhileLang.exec (fuel + 1) stmt stack).IsReached program other fun more =>
      WhileLang.exec more item (stack.withProgram other) := by
  refine .succ ?_
  cases stmt with
  | seq => cases hstmt
  | assign name value =>
    rw [Stmt.leftNested_eq_assign hitem]
    refine (h.eval value hstack).andThen fun result after hafter => ?_
    have hassigned : (after.assign name result).program = program := hafter
    exact .ofDone hassigned
  | ifThen condition body =>
    obtain ⟨inner, rfl, hinner⟩ := Stmt.leftNested_eq_ifThen hitem
    refine (h.eval condition hstack).andThen fun judged _ hafter => ?_
    cases judged.truthy with
    | true => exact h.block hinner.symm hafter
    | false => exact .ofDone hafter
  | ifElse condition body alternative =>
    obtain ⟨inner, inner', rfl, hinner, hinner'⟩ := Stmt.leftNested_eq_ifElse hitem
    refine (h.eval condition hstack).andThen fun judged _ hafter => ?_
    cases judged.truthy with
    | true => exact h.block hinner.symm hafter
    | false => exact h.block hinner'.symm hafter
  | loop condition body =>
    obtain ⟨inner, rfl, hinner⟩ := Stmt.leftNested_eq_loop hitem
    refine (h.eval condition hstack).andThen fun judged _ hafter => ?_
    cases judged.truthy with
    | true => exact (h.block hinner.symm hafter).andThen fun _ _ hafter => h.block hitem.symm hafter
    | false => exact .ofDone hafter

theorem exec_succ (h : EvaluatesRenested program other fuel) {stmt : Stmt} {items : List Stmt}
    (hitems : stmt.flatten.map Stmt.leftNested = items.map Stmt.leftNested)
    (hstack : stack.program = program) :
    (WhileLang.exec (fuel + 1) stmt stack).IsReached program other fun more =>
      execAll more items (stack.withProgram other) := by
  cases hstmt : stmt.isSeq with
  | true =>
    cases stmt with
    | assign | ifThen | ifElse | loop => cases hstmt
    | seq first second =>
      -- The statements of the other chain are split where the first part ends.
      rw [Stmt.flatten, List.map_append] at hitems
      obtain ⟨left, right, rfl, hleft, hright⟩ := List.map_eq_append_iff.1 hitems.symm
      have hboth := (h.exec hleft.symm hstack).andThen fun _ _ hafter => h.exec hright.symm hafter
      exact hboth.congr (.of_forall fun more => execAll_append more left right _)
  | false =>
    rw [Stmt.flatten_eq_singleton hstmt, List.map_singleton] at hitems
    obtain ⟨item, rfl, hitem⟩ := List.map_eq_singleton_iff.1 hitems.symm
    exact (h.single_succ hstmt hitem hstack).congr
      (.of_forall fun more => execAll_singleton more item _)

theorem runFunction_succ (h : EvaluatesRenested program other fuel)
    {function function' : FunctionDef} (hsame : function.leftNested = function'.leftNested)
    (hstack : stack.program = program) :
    (WhileLang.runFunction (fuel + 1) function stack).IsReached program other fun more =>
      WhileLang.runFunction more function' (stack.withProgram other) := by
  obtain ⟨-, -, hbody, hresult⟩ := FunctionDef.leftNested_eq_iff.1 hsame
  refine .succ ?_
  simp only [WhileLang.runFunction]
  cases hfirst : function.body with
  | none =>
    rw [hfirst, Option.map_none] at hbody
    rw [Option.map_eq_none_iff.1 hbody.symm, ← hresult]
    exact h.eval function.result hstack
  | some body =>
    rw [hfirst, Option.map_some] at hbody
    obtain ⟨body', hsecond, hbodies⟩ := Option.map_eq_some_iff.1 hbody.symm
    rw [hsecond, ← hresult]
    exact (h.block hbodies.symm hstack).andThen fun _ _ hafter => h.eval function.result hafter

theorem callFunction_succ (h : EvaluatesRenested program other fuel)
    {function function' : FunctionDef} (hsame : function.leftNested = function'.leftNested)
    (args : List Value) (hstack : stack.program = program) :
    (WhileLang.callFunction (fuel + 1) function args stack).IsReached program other fun more =>
      WhileLang.callFunction more function' args (stack.withProgram other) := by
  obtain ⟨hname, hparams, -, -⟩ := FunctionDef.leftNested_eq_iff.1 hsame
  refine .succ ?_
  simp only [WhileLang.callFunction, FunctionDef.frame, ← hname, ← hparams,
    stack.enter_withProgram other]
  split
  · cases henter : stack.enter function.name (.ofList (function.params.zip args)) with
    | error error => exact .ofFailed hstack
    | ok entered =>
      exact (h.runFunction hsame ((stack.program_enter henter).trans hstack)).leaving
  · exact .ofFailed hstack

end EvaluatesRenested

/-- What evaluations end with is reached over a program that differs in the nesting of chains. -/
theorem evaluation_renested {program other : Program}
    (h : program.leftNested = other.leftNested) (fuel : Nat) :
    EvaluatesRenested program other fuel := by
  induction fuel with
  | zero => exact ⟨fun _ _ _ => .outOfFuel, fun _ _ _ => .outOfFuel, fun _ _ _ => .outOfFuel,
      fun _ _ _ => .outOfFuel, fun _ _ _ _ => .outOfFuel⟩
  | succ fuel ih =>
    exact ⟨fun expr _ => ih.eval_succ h expr, fun args _ => ih.evalArgs_succ args,
      fun hitems _ => ih.exec_succ hitems, fun hsame _ => ih.runFunction_succ hsame,
      fun hsame args _ => ih.callFunction_succ hsame args⟩

/-! ## Runs -/

namespace Program

variable {program other : Program} {maxDepth : Nat} {ending : Except SemanticError Execution}

/-- A run ends as that of a program that differs in the nesting of chains. -/
theorem Ends.renested (hsame : program.leftNested = other.leftNested)
    (h : program.Ends maxDepth ending) : other.Ends maxDepth ending := by
  obtain ⟨fuel, hfuel⟩ := h
  have hmain : (CallStack.new program maxDepth).function entryPoint
      = program.effective entryPoint := rfl
  have hmain' : (CallStack.new other maxDepth).function entryPoint
      = other.effective entryPoint := rfl
  unfold Ends
  simp only [run?, hmain, hmain'] at hfuel ⊢
  rcases effective_of_leftNested_eq hsame entryPoint with
    ⟨main, main', heq, heq', hfunctions⟩ | ⟨error, heq, heq'⟩
  · rw [heq] at hfuel
    rw [heq']
    have hstart : (CallStack.new program maxDepth).program = program := rfl
    have hreached : (runFunction fuel main (.new program maxDepth)).IsReached program other
        fun more => runFunction more main' (.new other maxDepth) :=
      (evaluation_renested hsame fuel).runFunction hfunctions hstart
    simp only at hfuel ⊢
    generalize runFunction fuel main (.new program maxDepth) = outcome at hfuel hreached
    cases hreached with
    | @done value stack _ h =>
      obtain ⟨more, hmore⟩ := h.exists
      cases hfuel
      refine ⟨more, ?_⟩
      rw [hmore, Outcome.execution?, stack.leave_withProgram]
    | failed _ h =>
      obtain ⟨more, hmore⟩ := h.exists
      cases hfuel
      refine ⟨more, ?_⟩
      rw [hmore, Outcome.execution?]
    | outOfFuel => cases hfuel
  · rw [heq] at hfuel
    rw [heq']
    exact ⟨0, hfuel⟩

/-- Runs of programs that differ in the nesting of chains end alike, if they end. -/
theorem ends_iff_of_leftNested_eq (h : program.leftNested = other.leftNested) :
    program.Ends maxDepth ending ↔ other.Ends maxDepth ending :=
  ⟨Ends.renested h, Ends.renested h.symm⟩

end Program

end WhileLang
