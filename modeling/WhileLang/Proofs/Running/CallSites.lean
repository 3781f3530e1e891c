import WhileLang.Proofs.Running.Origins

/-!
# Where calls are written

Every call that a run comes to is written in the effective definition of some function of the
program, and passes as many values as there are arguments written in it.  So a run that ends because
a function was called with a wrong number of arguments has come to a call that is written like that.

Main definitions:

- Predicate {lit}`Activity.IsWritten`: the calls of an activity are written in a program.
- Predicate {lit}`Program.Reaches`: a run comes to an activity.

Main results:

- Theorem {lit}`Activity.IsWritten.of_comesTo`: what an activity comes to is written as well.
- Theorem {lit}`Program.run?_arityMismatch`: a wrong number of arguments is written in the program.
-/

namespace WhileLang

open Relation (ReflTransGen)

/-! ## Activities with calls that are written -/

/-- The calls in a task. -/
def Task.calls : Task → List (String × List Expr)
  | .expr tree => tree.calls
  | .args trees => Expr.calls.callsOfArgs trees
  | .stmt tree => tree.calls
  | .run function => function.calls
  | .call function _ => function.calls

theorem Outcome.andThen_eq_done {α β : Type} {outcome : Outcome α}
    {next : α → CallStack → Outcome β} {value : β} {after : CallStack} :
    outcome.andThen next = .done value after ↔
      ∃ first middle, outcome = .done first middle ∧ next first middle = .done value after := by
  cases outcome with
  | done first middle =>
    constructor
    · exact fun h => ⟨first, middle, rfl, h⟩
    · rintro ⟨_, _, h, hnext⟩
      cases h
      exact hnext
  | failed error stack => simp [andThen]
  | outOfFuel => simp [andThen]

/-- A call has as many values as there are arguments in it. -/
theorem length_of_evalArgs {fuel : Nat} {args : List Expr} {stack after : CallStack}
    {values : List Value} (h : evalArgs fuel args stack = .done values after) :
    values.length = args.length := by
  induction fuel generalizing args stack values after with
  | zero => cases h
  | succ fuel ih =>
    cases args with
    | nil =>
      cases h
      rfl
    | cons arg rest =>
      obtain ⟨value, middle, -, h⟩ := Outcome.andThen_eq_done.1 h
      obtain ⟨others, last, hrest, h⟩ := Outcome.andThen_eq_done.1 h
      cases h
      exact congrArg Nat.succ (ih hrest)

namespace Activity

variable {program : Program} {maxDepth : Nat} {activity next origin : Activity}

/-- The calls of an activity are written in the effective definitions of a program. -/
def IsWritten (activity : Activity) (program : Program) : Prop :=
  ∀ call ∈ activity.task.calls, ∃ caller, program.CallsWith caller call.1 call.2

/-- The function that a stack of a program calls is an effective definition of the program. -/
theorem BelongsTo.function?_eq_some {task : Task} {stack : CallStack} {name : String}
    {function : FunctionDef} (h : BelongsTo ⟨task, stack⟩ program maxDepth)
    (hfunction : stack.function name = .ok function) : program.function? name = some function := by
  have hprogram : stack.program = program := h.program_eq
  rw [CallStack.function, hprogram] at hfunction
  exact Program.effective_eq_ok.1 hfunction

/-- What is called is an effective definition, and otherwise only parts of a task are evaluated. -/
theorem IsWritten.of_comesTo (h : activity.IsWritten program)
    (hbelongs : next.BelongsTo program maxDepth) (hnext : activity.ComesTo next) :
    next.IsWritten program := by
  have hpart (hcalls : next.task.calls ⊆ activity.task.calls) : next.IsWritten program :=
    fun call hmem => h call (hcalls hmem)
  cases hnext with
  | firstOperand hoperands | secondOperand hoperands _ =>
    exact hpart (Expr.calls_of_mem_operands (by simp [hoperands]))
  | args => exact hpart (List.subset_cons_self _ _)
  | @call _ _ _ _ _ _ function _ hfunction =>
    exact fun call hmem => ⟨_, function, hbelongs.function?_eq_some hfunction, hmem⟩
  | firstArg => exact hpart (List.subset_append_left _ _)
  | otherArgs _ => exact hpart (List.subset_append_right _ _)
  | subject hsubject => exact hpart (Stmt.calls_of_subject? hsubject)
  | firstStmt => exact hpart (List.subset_append_left _ _)
  | secondStmt _ => exact hpart (List.subset_append_right _ _)
  | branch _ _ hbranch => exact hpart (Stmt.calls_of_branch? hbranch)
  | again _ _ _ => exact hpart (List.Subset.refl _)
  | @body stack function body hbody =>
    refine hpart fun call hmem => List.mem_append_left _ ?_
    rw [hbody]
    exact hmem
  | result _ | resultAfter _ _ => exact hpart (List.subset_append_right _ _)
  | enter _ _ => exact hpart (List.Subset.refl _)

theorem IsWritten.of_comesTo_all (h : activity.IsWritten program)
    (hbelongs : activity.BelongsTo program maxDepth)
    (hreaches : ReflTransGen ComesTo activity origin) : origin.IsWritten program := by
  induction hreaches with
  | refl => exact h
  | tail hpath hstep ih =>
    exact ih.of_comesTo (hbelongs.of_comesTo_all (hpath.tail hstep)) hstep

/-- Only a call with another number of values than the function has parameters raises that. -/
theorem Raises.of_arityMismatch {name : String} {expected found : Nat}
    (h : origin.Raises (.arityMismatch name expected found)) :
    ∃ function values, origin.task = .call function values ∧ function.name = name
      ∧ function.params.length = expected ∧ values.length = found ∧ found ≠ expected := by
  cases h with
  | math _ _ happly => cases applyMath_eq_error happly
  | compare _ _ happly => cases applyCompare_eq_error happly
  | unknown _ hfunction => cases (Program.effective_eq_error.1 hfunction).2
  | arity harity => exact ⟨_, _, rfl, rfl, rfl, rfl, harity⟩
  | depth _ henter => cases (CallStack.enter_eq_error henter).1

end Activity

/-! ## Wrong numbers of arguments -/

namespace Program

variable {program : Program} {maxDepth fuel : Nat}

/-- The run of a program comes to an activity. -/
def Reaches (program : Program) (maxDepth : Nat) (activity : Activity) : Prop :=
  ∃ main, program.function? entryPoint = some main
    ∧ ReflTransGen Activity.ComesTo (program.start maxDepth main) activity

/-- What a run comes to is written in the program. -/
theorem Reaches.isWritten {activity : Activity} (h : program.Reaches maxDepth activity) :
    activity.IsWritten program := by
  obtain ⟨main, hmain, hreaches⟩ := h
  have hstart : (program.start maxDepth main).IsWritten program :=
    fun _ hmem => ⟨entryPoint, main, hmain, hmem⟩
  exact hstart.of_comesTo_all (start_belongsTo hmain) hreaches

/-- A run that ends because of a wrong number of arguments has come to a call with that number. -/
theorem run?_arityMismatch {name : String} {expected found : Nat}
    (h : program.run? maxDepth fuel = some (.error (.arityMismatch name expected found))) :
    ∃ args stack function, program.Reaches maxDepth ⟨.expr (.call name args), stack⟩
      ∧ program.function? name = some function ∧ function.params.length = expected
      ∧ args.length = found ∧ found ≠ expected := by
  rcases run?_error h with hmain | ⟨main, ⟨task, stack⟩, hmain, hreaches, hraises, hbelongs⟩
  · cases (effective_eq_error.1 hmain).2
  obtain ⟨function, values, rfl, hname, hexpected, hfound, hne⟩ := hraises.of_arityMismatch
  -- A function is called only by a call in an expression.
  rcases ReflTransGen.cases_tail hreaches with hstart | ⟨before, hbefore, hstep⟩
  · cases hstart
  cases hstep with
  | @call start _ _ callee args _ _ hargs hfunction =>
    have hfunction : program.function? callee = some function :=
      hbelongs.function?_eq_some hfunction
    obtain rfl : callee = name := (mem_functions_of_function? hfunction).2.symm.trans hname
    exact ⟨args, start, function, ⟨main, hmain, hbefore⟩, hfunction, hexpected,
      (length_of_evalArgs hargs).symm.trans hfound, hne⟩

end Program

end WhileLang
