import WhileLang.Proofs.Running.Nesting

/-!
# Evaluation sees no more than the functions it calls

Of a program an evaluation sees the functions that are called, and those that these call.  So a bare
block, which has no functions to call, does the same as the body of an entry point that is alone in
its program, unless it calls that entry point.

Main definitions:

- Structure {lit}`Program.AgreesOn`: two programs with the same functions of some names.
- Relation {lit}`Outcome.Over`: the same outcome over two programs.
- Function {lit}`Stmt.asProgram`: a block as the body of an entry point.
- Relation {lit}`Stmt.Ends`: how the run of a block ends.

Main results:

- Theorem {lit}`evaluation_over`: evaluations over programs that agree on what is called.
- Theorem {lit}`Stmt.run?_asProgram`: with one more unit of fuel the program ends as the block.
- Theorem {lit}`Stmt.Ends.unique`: a block ends in one way.
- Theorem {lit}`Stmt.runs_asProgram`: a block and its program diverge, fail or succeed together.
-/

namespace WhileLang

/-! ## Programs that agree -/

/-- Two programs look up some names alike, and the functions found call such names only. -/
structure Program.AgreesOn (known : String → Prop) (program other : Program) : Prop where
  effective {name : String} : known name → other.effective name = program.effective name
  closed {name callee : String} {function : FunctionDef} : known name →
    program.effective name = .ok function → callee ∈ function.callees → known callee

/-- The same value or the same failure, in the same frames over two programs, or neither yet. -/
inductive Outcome.Over {α : Type} (program other : Program) : Outcome α → Outcome α → Prop where
  | done (value : α) {stack : CallStack} (h : stack.program = program) :
      Over program other (.done value stack) (.done value (stack.withProgram other))
  | failed (error : SemanticError) {stack : CallStack} (h : stack.program = program) :
      Over program other (.failed error stack) (.failed error (stack.withProgram other))
  | outOfFuel : Over program other .outOfFuel .outOfFuel

namespace Outcome.Over

variable {α β : Type} {program other : Program} {outcome outcome' : Outcome α}

theorem andThen {next next' : α → CallStack → Outcome β} (h : outcome.Over program other outcome')
    (hnext : ∀ value stack, stack.program = program →
      (next value stack).Over program other (next' value (stack.withProgram other))) :
    (outcome.andThen next).Over program other (outcome'.andThen next') := by
  cases h with
  | done value hstack => exact hnext value _ hstack
  | failed error hstack => exact .failed error hstack
  | outOfFuel => exact .outOfFuel

theorem ofExcept (result : Except SemanticError α) {stack : CallStack}
    (h : stack.program = program) :
    (Outcome.ofExcept result stack).Over program other
      (Outcome.ofExcept result (stack.withProgram other)) := by
  cases result with
  | ok value => exact .done value h
  | error error => exact .failed error h

theorem leaving (h : outcome.Over program other outcome') :
    outcome.leaving.Over program other outcome'.leaving := by
  cases h with
  | @done value stack hstack =>
    simp only [Outcome.leaving, stack.leave_withProgram]
    exact .done value (stack.program_leave.trans hstack)
  | @failed error stack hstack =>
    simp only [Outcome.leaving, stack.leave_withProgram]
    exact .failed error (stack.program_leave.trans hstack)
  | outOfFuel => exact .outOfFuel

end Outcome.Over

/-! ## Evaluations -/

/-- With a given amount of fuel, evaluations that call known names only do not tell two programs
apart. -/
structure EvaluatesOver (known : String → Prop) (program other : Program) (fuel : Nat) : Prop where
  eval {expr : Expr} (hcalls : ∀ callee ∈ expr.callees, known callee) {stack : CallStack}
    (h : stack.program = program) :
    (eval fuel expr stack).Over program other (eval fuel expr (stack.withProgram other))
  evalArgs {args : List Expr} (hcalls : ∀ callee ∈ Expr.callees.calleesOfArgs args, known callee)
    {stack : CallStack} (h : stack.program = program) :
    (evalArgs fuel args stack).Over program other (evalArgs fuel args (stack.withProgram other))
  exec {stmt : Stmt} (hcalls : ∀ callee ∈ stmt.callees, known callee) {stack : CallStack}
    (h : stack.program = program) :
    (exec fuel stmt stack).Over program other (exec fuel stmt (stack.withProgram other))
  runFunction {function : FunctionDef} (hcalls : ∀ callee ∈ function.callees, known callee)
    {stack : CallStack} (h : stack.program = program) :
    (runFunction fuel function stack).Over program other
      (runFunction fuel function (stack.withProgram other))
  callFunction {function : FunctionDef} (hcalls : ∀ callee ∈ function.callees, known callee)
    (args : List Value) {stack : CallStack} (h : stack.program = program) :
    (callFunction fuel function args stack).Over program other
      (callFunction fuel function args (stack.withProgram other))

namespace EvaluatesOver

variable {known : String → Prop} {program other : Program} {fuel : Nat} {stack : CallStack}

theorem eval_succ (h : EvaluatesOver known program other fuel)
    (hagrees : program.AgreesOn known other) {expr : Expr}
    (hcalls : ∀ callee ∈ expr.callees, known callee) (hstack : stack.program = program) :
    (WhileLang.eval (fuel + 1) expr stack).Over program other
      (WhileLang.eval (fuel + 1) expr (stack.withProgram other)) := by
  -- Both operands are evaluated whatever the operator, and then their values are combined.
  have hboth {left right : Expr}
      (hoperands : ∀ callee ∈ left.callees ++ right.callees, known callee)
      (combine : Value → Value → Except SemanticError Value) :
      ((WhileLang.eval fuel left stack).andThen fun a stack =>
          (WhileLang.eval fuel right stack).andThen fun b stack =>
            .ofExcept (combine a b) stack).Over program other
        ((WhileLang.eval fuel left (stack.withProgram other)).andThen fun a stack =>
          (WhileLang.eval fuel right stack).andThen fun b stack =>
            .ofExcept (combine a b) stack) := by
    obtain ⟨hleft, hright⟩ := List.forall_mem_append.1 hoperands
    refine (h.eval hleft hstack).andThen fun a _ hafter => ?_
    exact (h.eval hright hafter).andThen fun b _ hafter => .ofExcept (combine a b) hafter
  cases expr with
  | literal value => exact .done value hstack
  | var name => exact .done _ hstack
  | math op left right => exact hboth hcalls (applyMath op)
  | compare op left right => exact hboth hcalls (applyCompare op)
  | logic op left right => exact hboth hcalls fun a b => .ok (applyLogic op a b)
  | not operand =>
    have hoperand : ∀ callee ∈ operand.callees, known callee := hcalls
    exact (h.eval hoperand hstack).andThen fun a _ hafter => .done _ hafter
  | call name args =>
    obtain ⟨hname, hargs⟩ := List.forall_mem_cons.1 hcalls
    refine (h.evalArgs hargs hstack).andThen fun values after hafter => ?_
    have hother : (after.withProgram other).function name = program.effective name :=
      hagrees.effective hname
    have hfunction : after.function name = program.effective name := by
      rw [CallStack.function, hafter]
    rw [hother, hfunction]
    cases heffective : program.effective name with
    | error error => exact .failed error hafter
    | ok function =>
      exact h.callFunction (fun _ => hagrees.closed hname heffective) values hafter

theorem evalArgs_succ (h : EvaluatesOver known program other fuel) {args : List Expr}
    (hcalls : ∀ callee ∈ Expr.callees.calleesOfArgs args, known callee)
    (hstack : stack.program = program) :
    (WhileLang.evalArgs (fuel + 1) args stack).Over program other
      (WhileLang.evalArgs (fuel + 1) args (stack.withProgram other)) := by
  cases args with
  | nil => exact .done [] hstack
  | cons arg rest =>
    obtain ⟨harg, hrest⟩ := List.forall_mem_append.1 hcalls
    refine (h.eval harg hstack).andThen fun value _ hafter => ?_
    exact (h.evalArgs hrest hafter).andThen fun values _ hafter => .done _ hafter

theorem exec_succ (h : EvaluatesOver known program other fuel) {stmt : Stmt}
    (hcalls : ∀ callee ∈ stmt.callees, known callee) (hstack : stack.program = program) :
    (WhileLang.exec (fuel + 1) stmt stack).Over program other
      (WhileLang.exec (fuel + 1) stmt (stack.withProgram other)) := by
  cases stmt with
  | assign name value =>
    exact (h.eval hcalls hstack).andThen fun result after hafter => .done () hafter
  | seq first second =>
    obtain ⟨hfirst, hsecond⟩ := List.forall_mem_append.1 hcalls
    exact (h.exec hfirst hstack).andThen fun _ _ hafter => h.exec hsecond hafter
  | ifThen condition body =>
    obtain ⟨hcondition, hbody⟩ := List.forall_mem_append.1 hcalls
    refine (h.eval hcondition hstack).andThen fun judged _ hafter => ?_
    cases judged.truthy with
    | true => exact h.exec hbody hafter
    | false => exact .done () hafter
  | ifElse condition body alternative =>
    obtain ⟨hcondition, hbranches⟩ := List.forall_mem_append.1 hcalls
    obtain ⟨hbody, halternative⟩ := List.forall_mem_append.1 hbranches
    refine (h.eval hcondition hstack).andThen fun judged _ hafter => ?_
    cases judged.truthy with
    | true => exact h.exec hbody hafter
    | false => exact h.exec halternative hafter
  | loop condition body =>
    obtain ⟨hcondition, hbody⟩ := List.forall_mem_append.1 hcalls
    refine (h.eval hcondition hstack).andThen fun judged _ hafter => ?_
    cases judged.truthy with
    | true => exact (h.exec hbody hafter).andThen fun _ _ hafter => h.exec hcalls hafter
    | false => exact .done () hafter

theorem runFunction_succ (h : EvaluatesOver known program other fuel) {function : FunctionDef}
    (hcalls : ∀ callee ∈ function.callees, known callee) (hstack : stack.program = program) :
    (WhileLang.runFunction (fuel + 1) function stack).Over program other
      (WhileLang.runFunction (fuel + 1) function (stack.withProgram other)) := by
  obtain ⟨hbodyCalls, hresult⟩ := List.forall_mem_append.1 hcalls
  unfold WhileLang.runFunction
  cases hbody : function.body with
  | none => exact h.eval hresult hstack
  | some body =>
    rw [hbody] at hbodyCalls
    exact (h.exec hbodyCalls hstack).andThen fun _ _ hafter => h.eval hresult hafter

theorem callFunction_succ (h : EvaluatesOver known program other fuel) {function : FunctionDef}
    (hcalls : ∀ callee ∈ function.callees, known callee) (args : List Value)
    (hstack : stack.program = program) :
    (WhileLang.callFunction (fuel + 1) function args stack).Over program other
      (WhileLang.callFunction (fuel + 1) function args (stack.withProgram other)) := by
  simp only [WhileLang.callFunction, stack.enter_withProgram other]
  split
  · cases henter : stack.enter function.name (function.frame args) with
    | error error => exact .failed error hstack
    | ok entered =>
      exact (h.runFunction hcalls ((stack.program_enter henter).trans hstack)).leaving
  · exact .failed _ hstack

end EvaluatesOver

/-- Evaluations over programs that agree on what is called end alike. -/
theorem evaluation_over {known : String → Prop} {program other : Program}
    (h : program.AgreesOn known other) (fuel : Nat) : EvaluatesOver known program other fuel := by
  induction fuel with
  | zero => exact ⟨fun _ _ _ => .outOfFuel, fun _ _ _ => .outOfFuel, fun _ _ _ => .outOfFuel,
      fun _ _ _ => .outOfFuel, fun _ _ _ _ => .outOfFuel⟩
  | succ fuel ih =>
    exact ⟨fun hcalls _ => ih.eval_succ h hcalls, fun hcalls _ => ih.evalArgs_succ hcalls,
      fun hcalls _ => ih.exec_succ hcalls, fun hcalls _ => ih.runFunction_succ hcalls,
      fun hcalls args _ => ih.callFunction_succ hcalls args⟩

/-! ## Blocks as programs -/

namespace Stmt

/-- A block as the body of an entry point, alone in its program, that returns a given value. -/
def asProgram (script : Stmt) (returned : Value) : Program where
  functions := [{ name := entryPoint, params := [], body := some script,
                  result := .literal returned }]

/-- The run of a block ends with an execution or an error, given enough fuel. -/
def Ends (script : Stmt) (maxDepth : Nat) (ending : Except SemanticError Execution) : Prop :=
  ∃ fuel, script.run? maxDepth fuel = some ending

variable {script : Stmt} {maxDepth : Nat}

theorem effective_asProgram (script : Stmt) (returned : Value) {name : String}
    (h : name ≠ entryPoint) :
    (script.asProgram returned).effective name = .error (.unknownFunction name) := by
  simp [Program.effective, Program.function?, asProgram, h.symm]

/-- A program of a block has no functions but its entry point, and so has no program at all. -/
theorem agreesOn_asProgram (script : Stmt) (returned : Value) :
    Program.AgreesOn (· ≠ entryPoint) ⟨[]⟩ (script.asProgram returned) where
  effective := effective_asProgram script returned
  closed := nofun

/-- With one more unit of fuel, for the function, the program does what the block does. -/
theorem run?_asProgram (h : entryPoint ∉ script.callees) (returned : Value) (fuel : Nat) :
    (script.asProgram returned).run? maxDepth (fuel + 1)
      = (script.run? maxDepth fuel).map
          (·.map fun execution => ⟨execution.bindings, some returned⟩) := by
  have hcalls : ∀ callee ∈ script.callees, callee ≠ entryPoint :=
    fun callee hmem heq => h (heq ▸ hmem)
  have hover := (evaluation_over (agreesOn_asProgram script returned) fuel).exec hcalls
    (show (CallStack.detached maxDepth).program = ⟨[]⟩ from rfl)
  change ((exec fuel script (.new (script.asProgram returned) maxDepth)).andThen fun _ stack =>
    eval fuel (.literal returned) stack).execution? some = _
  change (exec fuel script (.detached maxDepth)).Over ⟨[]⟩ (script.asProgram returned)
    (exec fuel script (.new (script.asProgram returned) maxDepth)) at hover
  unfold run?
  cases fuel with
  | zero => rfl
  | succ fuel =>
    generalize exec (fuel + 1) script (.detached maxDepth) = outcome at hover
    generalize exec (fuel + 1) script (.new (script.asProgram returned) maxDepth) = other at hover
    cases hover with
    | @done _ stack _ =>
      change some (Except.ok (⟨(stack.withProgram _).leave.1.bindings, some returned⟩ : Execution))
        = _
      rw [stack.leave_withProgram]
      rfl
    | failed error => rfl
    | outOfFuel => rfl

/-- The program of a block ends as the block does, and returns the given value. -/
theorem ends_asProgram_iff (h : entryPoint ∉ script.callees) (returned : Value)
    {ending : Except SemanticError Execution} :
    (script.asProgram returned).Ends maxDepth ending ↔ ∃ ended, script.Ends maxDepth ended
      ∧ ending = ended.map fun execution => ⟨execution.bindings, some returned⟩ := by
  constructor
  · rintro ⟨fuel, hfuel⟩
    cases fuel with
    | zero => cases hfuel
    | succ fuel =>
      rw [run?_asProgram h] at hfuel
      obtain ⟨ended, hended, rfl⟩ := Option.map_eq_some_iff.1 hfuel
      exact ⟨ended, ⟨fuel, hended⟩, rfl⟩
  · rintro ⟨ended, ⟨fuel, hended⟩, rfl⟩
    refine ⟨fuel + 1, ?_⟩
    rw [run?_asProgram h, hended]
    rfl

/-- The fuel does not matter for how a block ends. -/
theorem Ends.unique {ending other : Except SemanticError Execution}
    (h : script.Ends maxDepth ending) (h' : script.Ends maxDepth other) : ending = other := by
  obtain ⟨fuel, hfuel⟩ := h
  obtain ⟨fuel', hfuel'⟩ := h'
  have hmore {few more : Nat} {ending : Except SemanticError Execution}
      (hend : script.run? maxDepth few = some ending) (hle : few ≤ more) :
      script.run? maxDepth more = some ending := by
    unfold run? at hend ⊢
    have hends : exec few script (.detached maxDepth) ≠ .outOfFuel := by
      intro hout
      rw [hout] at hend
      cases hend
    rwa [exec_of_le hle hends]
  have hboth := (hmore hfuel (Nat.le_max_left fuel fuel')).symm.trans
    (hmore hfuel' (Nat.le_max_right fuel fuel'))
  exact Option.some.inj hboth

/-- A block that ends well returns nothing. -/
theorem Ends.returned_eq {execution : Execution} (h : script.Ends maxDepth (.ok execution)) :
    execution.returned = none := by
  obtain ⟨fuel, hfuel⟩ := h
  unfold run? at hfuel
  cases hexec : exec fuel script (.detached maxDepth) with
  | done =>
    rw [hexec] at hfuel
    cases hfuel
    rfl
  | failed | outOfFuel =>
    rw [hexec] at hfuel
    cases hfuel

/--
A block that does not call the entry point, and the program whose only function is an entry point
with the block as its body and a literal as its result, do not end both, or end with the same error,
or leave the same bindings in the same order.
-/
theorem runs_asProgram (h : entryPoint ∉ script.callees) (returned : Value) (maxDepth : Nat) :
    ((∀ ending, ¬ script.Ends maxDepth ending)
        ∧ ∀ ending, ¬ (script.asProgram returned).Ends maxDepth ending)
      ∨ (∃ error, script.Ends maxDepth (.error error)
        ∧ (script.asProgram returned).Ends maxDepth (.error error))
      ∨ ∃ bindings, script.Ends maxDepth (.ok ⟨bindings, none⟩)
        ∧ (script.asProgram returned).Ends maxDepth (.ok ⟨bindings, some returned⟩) := by
  by_cases hends : ∃ ended, script.Ends maxDepth ended
  · obtain ⟨ended, hended⟩ := hends
    have hprogram := (ends_asProgram_iff h returned).2 ⟨ended, hended, rfl⟩
    cases ended with
    | error error => exact .inr (.inl ⟨error, hended, hprogram⟩)
    | ok execution =>
      obtain ⟨bindings, _⟩ := execution
      obtain rfl := hended.returned_eq
      exact .inr (.inr ⟨bindings, hended, hprogram⟩)
  · refine .inl ⟨fun ending hending => hends ⟨ending, hending⟩, fun ending hending => ?_⟩
    obtain ⟨ended, hended, -⟩ := (ends_asProgram_iff h returned).1 hending
    exact hends ⟨ended, hended⟩

/-- An assignment whose call names no function, and neither does the call in its argument. -/
def callingNothing : Stmt := .assign "x" (.call "outer" [.call "inner" []])

theorem runs_asProgram_callingNothing :
    entryPoint ∉ callingNothing.callees
      ∧ callingNothing.Ends 0 (.error (.unknownFunction "inner"))
      ∧ (callingNothing.asProgram (.bool true)).Ends 0 (.error (.unknownFunction "inner")) := by
  have hcalls : entryPoint ∉ callingNothing.callees := by decide
  have hscript : callingNothing.Ends 0 (.error (.unknownFunction "inner")) := ⟨9, by decide +kernel⟩
  refine ⟨hcalls, hscript, ?_⟩
  obtain ⟨hdiverges, -⟩ | ⟨error, hended, hprogram⟩ | ⟨bindings, hended, -⟩ :=
    runs_asProgram hcalls (.bool true) 0
  · exact absurd hscript (hdiverges _)
  · exact hended.unique hscript ▸ hprogram
  · cases hended.unique hscript

end Stmt

end WhileLang
