import WhileLang.Proofs.Running.Nesting

/-!
# Termination without loops

A program in which no loop is written ends under every limit of nested calls, whatever its functions
call.  Inside a function an evaluation goes down in the syntax tree, and a call that is entered
leaves room for one call less.

Main definitions:

- Functions {lit}`Stmt.isLoopFree` and {lit}`Program.isLoopFree`: no loop is written.
- Predicate {lit}`Outcome.Converges`: an evaluation with enough fuel ends in one way.
- Predicate {lit}`CallStack.AllowsAtMost`: how many more calls can be nested on a stack.

Main results:

- Theorems {lit}`eval_converges`, {lit}`exec_converges` and {lit}`runFunction_converges`: an
  evaluation without loops ends if the calls in it do.
- Theorem {lit}`callsConverge_of_isLoopFree`: calls end, however many can be nested.
- Theorem {lit}`Program.ends_of_isLoopFree`: programs without loops end.
-/

namespace WhileLang

open Filter (atTop)

/-! ## Syntax without loops -/

/-- Whether no loop is written in a statement. -/
def Stmt.isLoopFree : Stmt → Bool
  | .assign .. => true
  | .seq first second => first.isLoopFree && second.isLoopFree
  | .ifThen _ body => body.isLoopFree
  | .ifElse _ body alternative => body.isLoopFree && alternative.isLoopFree
  | .loop .. => false

/-- Whether no loop is written in a definition. -/
def FunctionDef.isLoopFree (function : FunctionDef) : Bool :=
  function.body.all Stmt.isLoopFree

/-- Whether no loop is written in any definition of a program. -/
def Program.isLoopFree (program : Program) : Bool :=
  program.functions.all FunctionDef.isLoopFree

/-- The effective definitions of a program without loops have none. -/
theorem Program.isLoopFree_of_function? {program : Program} (h : program.isLoopFree = true)
    {name : String} {function : FunctionDef} (hfunction : program.function? name = some function) :
    function.isLoopFree = true :=
  List.all_eq_true.1 h function (mem_functions_of_function? hfunction).1

/-! ## Evaluations that end -/

/-- With enough fuel an evaluation ends in one way, and leaves a stack that has a property. -/
inductive Outcome.Converges {α : Type} (p : CallStack → Prop) (run : Nat → Outcome α) : Prop where
  | done {value : α} {stack : CallStack} (hstack : p stack)
      (h : ∀ᶠ fuel in atTop, run fuel = .done value stack) : Converges p run
  | failed {error : SemanticError} {stack : CallStack} (hstack : p stack)
      (h : ∀ᶠ fuel in atTop, run fuel = .failed error stack) : Converges p run

namespace Outcome.Converges

variable {α β : Type} {p q : CallStack → Prop} {run : Nat → Outcome α}

/-- An evaluation ends if it does so with one more unit of fuel. -/
theorem succ (h : Converges p fun fuel => run (fuel + 1)) : Converges p run := by
  have hlater {ending : Outcome α} (h : ∀ᶠ fuel in atTop, run (fuel + 1) = ending) :
      ∀ᶠ fuel in atTop, run fuel = ending := by
    rwa [← Filter.map_add_atTop_eq_nat 1, Filter.eventually_map]
  cases h with
  | done hstack h => exact .done hstack (hlater h)
  | failed hstack h => exact .failed hstack (hlater h)

theorem ofDone {value : α} {stack : CallStack} (h : p stack) :
    Converges p fun _ => .done value stack :=
  .done h (.of_forall fun _ => rfl)

theorem ofFailed {error : SemanticError} {stack : CallStack} (h : p stack) :
    Converges p fun _ => (.failed error stack : Outcome α) :=
  .failed h (.of_forall fun _ => rfl)

theorem ofExcept {result : Except SemanticError α} {stack : CallStack} (h : p stack) :
    Converges p fun _ => Outcome.ofExcept result stack := by
  cases result with
  | ok value => exact .ofDone h
  | error error => exact .ofFailed h

theorem congr {run' : Nat → Outcome α} (h : Converges p run)
    (hrun : ∀ᶠ fuel in atTop, run' fuel = run fuel) : Converges p run' := by
  cases h with
  | done hstack h => exact .done hstack (hrun.mp (h.mono fun _ h heq => heq.trans h))
  | failed hstack h => exact .failed hstack (hrun.mp (h.mono fun _ h heq => heq.trans h))

theorem andThen {next : Nat → α → CallStack → Outcome β} (h : Converges p run)
    (hnext : ∀ value stack, p stack → Converges p fun fuel => next fuel value stack) :
    Converges p fun fuel => (run fuel).andThen (next fuel) := by
  cases h with
  | @done value stack hstack h =>
    refine (hnext value stack hstack).congr (h.mono fun fuel heq => ?_)
    simp only [heq, Outcome.andThen]
  | @failed error stack hstack h =>
    have hfailed : ∀ᶠ fuel in atTop, (run fuel).andThen (next fuel) = .failed error stack :=
      h.mono fun fuel heq => by simp only [heq, Outcome.andThen]
    exact .failed hstack hfailed

theorem leaving (h : Converges p run) (hleave : ∀ stack, p stack → q stack.leave.2) :
    Converges q fun fuel => (run fuel).leaving := by
  have hleft {outcome : Outcome α} (h : ∀ᶠ fuel in atTop, run fuel = outcome) :
      ∀ᶠ fuel in atTop, (run fuel).leaving = outcome.leaving :=
    h.mono fun _ heq => congrArg Outcome.leaving heq
  cases h with
  | @done value stack hstack h => exact .done (hleave stack hstack) (hleft h)
  | @failed error stack hstack h => exact .failed (hleave stack hstack) (hleft h)

end Outcome.Converges

open Outcome (Converges)

/-! ## Room for calls -/

/-- At most so many calls to functions of a program can be nested on a stack. -/
structure CallStack.AllowsAtMost (program : Program) (calls : Nat) (stack : CallStack) : Prop where
  program_eq : stack.program = program
  maxDepth_lt : stack.maxDepth < stack.depth + calls

namespace CallStack.AllowsAtMost

variable {program : Program} {calls : Nat} {stack : CallStack}

theorem new (program : Program) (maxDepth : Nat) :
    (CallStack.new program maxDepth).AllowsAtMost program maxDepth where
  program_eq := rfl
  maxDepth_lt := by simp [depth, CallStack.new]

theorem assign (h : stack.AllowsAtMost program calls) (name : String) (value : Value) :
    (stack.assign name value).AllowsAtMost program calls :=
  ⟨h.program_eq, h.maxDepth_lt⟩

/-- A call that is entered uses up one of those that are allowed. -/
theorem enter (h : stack.AllowsAtMost program calls) {entered : CallStack} {function : String}
    {frame : Frame} (henter : stack.enter function frame = .ok entered) :
    ∃ fewer, calls = fewer + 1 ∧ entered.AllowsAtMost program fewer := by
  have hroom : stack.depth ≤ stack.maxDepth := enter_isOk_iff.1 ⟨entered, henter⟩
  obtain ⟨hprogram, hlt⟩ := h
  obtain ⟨fewer, rfl⟩ : ∃ fewer, calls = fewer + 1 := ⟨calls - 1, by omega⟩
  refine ⟨fewer, rfl, (stack.program_enter henter).trans hprogram, ?_⟩
  unfold CallStack.enter at henter
  rw [if_neg (by omega)] at henter
  cases henter
  simp only [depth, List.length_cons] at hlt ⊢
  omega

/-- Leaving a call makes room for one more. -/
theorem leave (h : stack.AllowsAtMost program calls) :
    stack.leave.2.AllowsAtMost program (calls + 1) := by
  obtain ⟨hprogram, hlt⟩ := h
  refine ⟨stack.program_leave.trans hprogram, ?_⟩
  rw [stack.maxDepth_leave]
  unfold CallStack.leave
  cases hcallers : stack.callers with
  | nil | cons =>
    simp only [depth, hcallers, List.length_cons, List.length_nil] at hlt ⊢
    omega

end CallStack.AllowsAtMost

/-! ## Evaluations without loops -/

/-- Calls to the functions of a program end wherever so many calls can be nested. -/
def CallsConverge (program : Program) (calls : Nat) : Prop :=
  ∀ name function, program.function? name = some function → ∀ args stack,
    stack.AllowsAtMost program calls →
      Converges (CallStack.AllowsAtMost program calls) fun fuel =>
        callFunction fuel function args stack

section

variable {program : Program} {calls : Nat} {stack : CallStack}

/-- Arguments are evaluated to an end if each of them is. -/
theorem evalArgs_converges {args : List Expr}
    (hargs : ∀ arg ∈ args, ∀ stack : CallStack, stack.AllowsAtMost program calls →
      Converges (CallStack.AllowsAtMost program calls) fun fuel => eval fuel arg stack)
    (hstack : stack.AllowsAtMost program calls) :
    Converges (CallStack.AllowsAtMost program calls) fun fuel => evalArgs fuel args stack := by
  induction args generalizing stack with
  | nil => exact .succ (.ofDone hstack)
  | cons arg rest ih =>
    refine .succ ((hargs arg List.mem_cons_self stack hstack).andThen fun value after hafter => ?_)
    have hrest := ih (fun other hmem => hargs other (List.mem_cons_of_mem arg hmem)) hafter
    exact hrest.andThen fun values _ hafter => .ofDone hafter

/-- An expression is evaluated to an end if the calls in it are. -/
theorem eval_converges (hcalls : CallsConverge program calls) (expr : Expr)
    (hstack : stack.AllowsAtMost program calls) :
    Converges (CallStack.AllowsAtMost program calls) fun fuel => eval fuel expr stack := by
  induction expr generalizing stack with
  | literal value => exact .succ (.ofDone hstack)
  | var name => exact .succ (.ofDone hstack)
  | math op left right ihl ihr | compare op left right ihl ihr =>
    refine .succ ((ihl hstack).andThen fun a _ hafter => ?_)
    exact (ihr hafter).andThen fun b _ hafter => .ofExcept hafter
  | logic op left right ihl ihr =>
    refine .succ ((ihl hstack).andThen fun a _ hafter => ?_)
    exact (ihr hafter).andThen fun b _ hafter => .ofDone hafter
  | not operand ih => exact .succ ((ih hstack).andThen fun a _ hafter => .ofDone hafter)
  | call name args ih =>
    have hargs := evalArgs_converges (fun arg hmem _ hstack => ih arg hmem hstack) hstack
    refine .succ (hargs.andThen fun values after hafter => ?_)
    have hfunction : after.function name = program.effective name := by
      rw [CallStack.function, hafter.program_eq]
    cases heffective : program.effective name with
    | error error =>
      simp only [hfunction, heffective]
      exact .ofFailed hafter
    | ok function =>
      simp only [hfunction, heffective]
      exact hcalls name function (Program.effective_eq_ok.1 heffective) values after hafter

/-- A statement without loops is executed to an end if the calls in it are. -/
theorem exec_converges (hcalls : CallsConverge program calls) {stmt : Stmt}
    (h : stmt.isLoopFree = true) (hstack : stack.AllowsAtMost program calls) :
    Converges (CallStack.AllowsAtMost program calls) fun fuel => exec fuel stmt stack := by
  induction stmt generalizing stack with
  | assign name value =>
    refine .succ ((eval_converges hcalls value hstack).andThen fun result _ hafter => ?_)
    exact .ofDone (hafter.assign name result)
  | seq first second ihf ihs =>
    obtain ⟨hfirst, hsecond⟩ := Bool.and_eq_true_iff.1 h
    exact .succ ((ihf hfirst hstack).andThen fun _ _ hafter => ihs hsecond hafter)
  | ifThen condition body ih =>
    refine .succ ((eval_converges hcalls condition hstack).andThen fun judged _ hafter => ?_)
    cases judged.truthy with
    | true => exact ih h hafter
    | false => exact .ofDone hafter
  | ifElse condition body alternative ihb iha =>
    obtain ⟨hbody, halternative⟩ := Bool.and_eq_true_iff.1 h
    refine .succ ((eval_converges hcalls condition hstack).andThen fun judged _ hafter => ?_)
    cases judged.truthy with
    | true => exact ihb hbody hafter
    | false => exact iha halternative hafter
  | loop => cases h

/-- A function without loops runs to an end if the calls in it do. -/
theorem runFunction_converges (hcalls : CallsConverge program calls) {function : FunctionDef}
    (h : function.isLoopFree = true) (hstack : stack.AllowsAtMost program calls) :
    Converges (CallStack.AllowsAtMost program calls) fun fuel =>
      runFunction fuel function stack := by
  refine .succ ?_
  simp only [runFunction]
  cases hbody : function.body with
  | none => exact eval_converges hcalls function.result hstack
  | some body =>
    have hfree : body.isLoopFree = true := by
      rwa [FunctionDef.isLoopFree, hbody] at h
    exact (exec_converges hcalls hfree hstack).andThen fun _ _ hafter =>
      eval_converges hcalls function.result hafter

/-- A call ends if the function runs to an end wherever one call less can be nested. -/
theorem callFunction_converges {function : FunctionDef} (args : List Value)
    (hrun : ∀ fewer, calls = fewer + 1 → ∀ entered : CallStack,
      entered.AllowsAtMost program fewer →
        Converges (CallStack.AllowsAtMost program fewer) fun fuel =>
          runFunction fuel function entered)
    (hstack : stack.AllowsAtMost program calls) :
    Converges (CallStack.AllowsAtMost program calls) fun fuel =>
      callFunction fuel function args stack := by
  refine .succ ?_
  simp only [callFunction]
  split
  · cases henter : stack.enter function.name (function.frame args) with
    | error error => exact .ofFailed hstack
    | ok entered =>
      obtain ⟨fewer, rfl, hentered⟩ := hstack.enter henter
      exact (hrun fewer rfl entered hentered).leaving fun _ hafter => hafter.leave
  · exact .ofFailed hstack

/-- Calls to functions without loops end, however many can be nested. -/
theorem callsConverge_of_isLoopFree (h : program.isLoopFree = true) (calls : Nat) :
    CallsConverge program calls := by
  -- The induction is on the calls that are still allowed; the syntax of a function is gone through
  -- again in every call.
  induction calls with
  | zero =>
    intro name function hfunction args stack hstack
    exact callFunction_converges args (fun _ heq => nomatch heq) hstack
  | succ calls ih =>
    intro name function hfunction args stack hstack
    refine callFunction_converges args (fun fewer heq entered hentered => ?_) hstack
    cases heq
    exact runFunction_converges ih (program.isLoopFree_of_function? h hfunction) hentered

end

/-! ## Runs -/

namespace Program

/--
A program without loops ends under every limit of nested calls, with an execution or an error and in
no other way, whatever its functions call.
-/
theorem ends_of_isLoopFree {program : Program} (h : program.isLoopFree = true) (maxDepth : Nat) :
    ∃! ending, program.Ends maxDepth ending := by
  suffices hends : ∃ ending, program.Ends maxDepth ending by
    obtain ⟨ending, hends⟩ := hends
    exact ⟨ending, hends, fun other hother => hother.unique hends⟩
  have hmain : (CallStack.new program maxDepth).function entryPoint
      = program.effective entryPoint := rfl
  simp only [Ends, run?, hmain]
  cases heffective : program.effective entryPoint with
  | error error => exact ⟨.error error, 0, rfl⟩
  | ok main =>
    have hfree := isLoopFree_of_function? h (effective_eq_ok.1 heffective)
    have hcalls := callsConverge_of_isLoopFree h maxDepth
    simp only
    cases runFunction_converges hcalls hfree (.new program maxDepth) with
    | @done value stack _ hdone =>
      obtain ⟨fuel, hfuel⟩ := hdone.exists
      exact ⟨.ok ⟨stack.leave.1.bindings, some value⟩, fuel, by rw [hfuel, Outcome.execution?]⟩
    | @failed error _ _ hfailed =>
      obtain ⟨fuel, hfuel⟩ := hfailed.exists
      exact ⟨.error error, fuel, by rw [hfuel, Outcome.execution?]⟩

/-- Two functions that call each other without end, more than once in every round. -/
def bottomless : Program where
  functions := [
    { name := "ping"
      params := ["n"]
      body := some (.ifElse (.compare .lt (.int 0) (.var "n"))
        (.assign "m" (.call "pong" [.call "pong" [.int 0]]))
        (.assign "m" (.call "ping" [.int 1])))
      result := .math .add (.var "m") (.call "pong" [.var "m"]) },
    { name := "pong"
      params := ["n"]
      body := none
      result := .call "ping" [.var "n"] },
    { name := "main"
      params := []
      body := none
      result := .call "ping" [.int 1] }]

theorem ends_of_isLoopFree_bottomless :
    bottomless.isLoopFree = true
      ∧ ∃ ending, bottomless.Ends 4 ending ∧ ending = .error (.callDepthExceeded "pong" 4) := by
  have hfree : bottomless.isLoopFree = true := by decide
  obtain ⟨ending, hends, -⟩ := ends_of_isLoopFree hfree 4
  exact ⟨hfree, ending, hends, hends.unique ⟨40, by decide +kernel⟩⟩

end Program

end WhileLang
