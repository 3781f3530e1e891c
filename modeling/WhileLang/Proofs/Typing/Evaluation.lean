import Mathlib.Data.List.Forall2
import WhileLang.Proofs.Running.FrameDiscipline
import WhileLang.Proofs.Typing.Rules

/-!
# Evaluation of typed programs

A value fits a type if it is of that kind.  Zero, which is what a variable reads as before it is
assigned, fits every type, so a frame without bindings fits whatever types its variables have.

Main definitions:

- Relations {lit}`Value.Fits` and {lit}`Frame.Fits`.
- Predicate {lit}`Outcome.EndsIn`: an evaluation ends with a value that has a property, with a
  failure other than a mismatch of operands, or not at all.

Main results:

- Theorem {lit}`evaluation_respectsTypes`: typed expressions, statements and functions evaluate to
  what fits their types, for any amount of fuel.
-/

namespace WhileLang

/-! ## Values and frames -/

/-- A value is of the kind that a type names, or is zero. -/
def Value.Fits (value : Value) (type : Ty) : Prop :=
  type = .con value.kind ∨ value = .int 0

theorem Value.fits_kind (value : Value) : value.Fits (.con value.kind) :=
  Or.inl rfl

@[simp]
theorem Value.default_fits (type : Ty) : (default : Value).Fits type :=
  Or.inr rfl

/-- What fits the type of integers is an integer. -/
theorem Value.Fits.eq_int {value : Value} (h : value.Fits .int) : ∃ number, value = .int number := by
  cases value with
  | int number => exact ⟨number, rfl⟩
  | bool truth => simp [Fits, Ty.int, kind] at h

/-- What fits the type of booleans is a boolean, or zero. -/
theorem Value.Fits.eq_bool {value : Value} (h : value.Fits .bool) :
    (∃ truth, value = .bool truth) ∨ value = .int 0 := by
  cases value with
  | int number => exact Or.inr (by simpa [Fits, Ty.bool, kind] using h)
  | bool truth => exact Or.inl ⟨truth, rfl⟩

/-- Whatever is bound in a frame fits the type of its variable. -/
def Frame.Fits (frame : Frame) (locals : String → Ty) : Prop :=
  ∀ binding ∈ frame.bindings, binding.2.Fits (locals binding.1)

namespace Frame

theorem fits_empty (locals : String → Ty) : empty.Fits locals := by
  simp [Fits, empty]

theorem fits_assign {bindings : List (String × Value)} {locals : String → Ty}
    (h : ∀ binding ∈ bindings, binding.2.Fits (locals binding.1)) {name : String} {value : Value}
    (hvalue : value.Fits (locals name)) :
    ∀ binding ∈ assign name value bindings, binding.2.Fits (locals binding.1) := by
  induction bindings with
  | nil => simpa [assign] using hvalue
  | cons binding rest ih =>
    obtain ⟨bound, old⟩ := binding
    rw [List.forall_mem_cons] at h
    unfold assign
    split
    · exact List.forall_mem_cons.2 ⟨hvalue, h.2⟩
    · exact List.forall_mem_cons.2 ⟨h.1, ih h.2⟩

theorem Fits.set {frame : Frame} {locals : String → Ty} (h : frame.Fits locals) {name : String}
    {value : Value} (hvalue : value.Fits (locals name)) : (frame.set name value).Fits locals :=
  fits_assign h hvalue

/-- The frame of a call fits the types of the parameters if the arguments do. -/
theorem Fits.ofList {locals : String → Ty} {params : List String} {args : List Value}
    (h : List.Forall₂ Value.Fits args (params.map locals)) :
    (Frame.ofList (params.zip args)).Fits locals := by
  have hfold (frame : Frame) (hframe : frame.Fits locals) :
      ((params.zip args).foldl (fun frame binding => frame.set binding.1 binding.2) frame).Fits
        locals := by
    induction params generalizing args frame with
    | nil => exact hframe
    | cons param rest ih =>
      cases h with
      | cons harg hargs => exact ih hargs _ (hframe.set harg)
  exact hfold empty (fits_empty locals)

end Frame

/-- Every variable reads as a value that fits its type. -/
theorem CallStack.resolve_fits {stack : CallStack} {locals : String → Ty}
    (h : stack.current.Fits locals) (name : String) : (stack.resolve name).Fits (locals name) := by
  unfold resolve Frame.get?
  cases hget : stack.current.bindings.lookup name with
  | none => exact Or.inr rfl
  | some value =>
    obtain ⟨before, after, heq, -⟩ := List.lookup_eq_some_iff.1 hget
    exact h (name, value) (by simp [heq])

/-! ## Operators -/

/-- Arithmetic on integers has an integer as its result. -/
theorem applyMath_fits {op : MathOp} {left right : Value} (hleft : left.Fits .int)
    (hright : right.Fits .int) : ∃ value, applyMath op left right = .ok value ∧ value.Fits .int := by
  obtain ⟨a, rfl⟩ := hleft.eq_int
  obtain ⟨b, rfl⟩ := hright.eq_int
  cases op with
  | add => exact ⟨_, rfl, Or.inl rfl⟩
  | sub => exact ⟨_, rfl, Or.inl rfl⟩

/-- Comparison of integers has a boolean as its result. -/
theorem applyCompare_fits {op : CompareOp} {left right : Value} (hleft : left.Fits .int)
    (hright : right.Fits .int) :
    ∃ value, applyCompare op left right = .ok value ∧ value.Fits .bool := by
  obtain ⟨a, rfl⟩ := hleft.eq_int
  obtain ⟨b, rfl⟩ := hright.eq_int
  exact ⟨_, rfl, Or.inl rfl⟩

theorem applyLogic_fits (op : LogicOp) (left right : Value) :
    (applyLogic op left right).Fits .bool := by
  cases op with
  | and => exact Or.inl rfl
  | or => exact Or.inl rfl

/-! ## Outcomes -/

/-- A failure that is no mismatch of operands. -/
def SemanticError.IsBenign (error : SemanticError) : Prop :=
  ∀ operator left right, error ≠ .operandMismatch operator left right

namespace Outcome

variable {α β : Type}

/-- An evaluation ends with a value and a stack as wanted, or with a benign failure, or not yet. -/
def EndsIn (outcome : Outcome α) (p : α → CallStack → Prop) : Prop :=
  match outcome with
  | .done value stack => p value stack
  | .failed error _ => error.IsBenign
  | .outOfFuel => True

theorem EndsIn.mono {outcome : Outcome α} {p q : α → CallStack → Prop} (h : outcome.EndsIn p)
    (hpq : ∀ value stack, outcome = .done value stack → p value stack → q value stack) :
    outcome.EndsIn q := by
  cases outcome with
  | done value stack => exact hpq value stack rfl h
  | failed error stack => exact h
  | outOfFuel => trivial

theorem EndsIn.andThen {outcome : Outcome α} {next : α → CallStack → Outcome β}
    {p : α → CallStack → Prop} {q : β → CallStack → Prop} (h : outcome.EndsIn p)
    (hnext : ∀ value stack, p value stack → (next value stack).EndsIn q) :
    (outcome.andThen next).EndsIn q := by
  cases outcome with
  | done value stack => exact hnext value stack h
  | failed error stack => exact h
  | outOfFuel => trivial

theorem EndsIn.leaving {outcome : Outcome α} {p : α → CallStack → Prop}
    (h : outcome.EndsIn fun value stack => p value stack.leave.2) : outcome.leaving.EndsIn p := by
  cases outcome with
  | done value stack => exact h
  | failed error stack => exact h
  | outOfFuel => trivial

end Outcome

/-! ## Evaluation -/

section

variable (program : Program) (signature? : String → Option Ty)

/-- What typed parts of a program evaluate to, with a given amount of fuel. -/
structure RespectsTypes (fuel : Nat) : Prop where
  eval {locals : String → Ty} {expr : Expr} {type : Ty} {stack : CallStack}
    (hstack : stack.program = program) (hframe : stack.current.Fits locals)
    (hexpr : expr.HasType signature? locals type) :
    (eval fuel expr stack).EndsIn fun value after => value.Fits type ∧ after = stack
  evalArgs {locals : String → Ty} {args : List Expr} {types : List Ty} {stack : CallStack}
    (hstack : stack.program = program) (hframe : stack.current.Fits locals)
    (hargs : Expr.ArgsHaveTypes signature? locals args types) :
    (evalArgs fuel args stack).EndsIn fun values after =>
      List.Forall₂ Value.Fits values types ∧ after = stack
  exec {locals : String → Ty} {stmt : Stmt} {stack : CallStack}
    (hstack : stack.program = program) (hframe : stack.current.Fits locals)
    (hstmt : stmt.IsTyped signature? locals) :
    (exec fuel stmt stack).EndsIn fun _ after =>
      after.current.Fits locals ∧ after.program = program
  runFunction {locals : String → Ty} {function : FunctionDef} {type : Ty} {stack : CallStack}
    (hstack : stack.program = program) (hframe : stack.current.Fits locals)
    (hfunction : function.Returns signature? locals type) :
    (runFunction fuel function stack).EndsIn fun value after =>
      value.Fits type ∧ after.current.Fits locals
  callFunction {function : FunctionDef} {args : List Value} {types : List Ty} {result : Ty}
    {stack : CallStack} (hstack : stack.program = program)
    (hargs : List.Forall₂ Value.Fits args types)
    (hfunction : function.HasType signature? (.arrows types result)) :
    (callFunction fuel function args stack).EndsIn fun value _ => value.Fits result

variable {program signature?}

namespace RespectsTypes

variable {fuel : Nat}

/-- Both operands of an operator are evaluated in the stack of the operator. -/
theorem eval_both (h : RespectsTypes program signature? fuel) {locals : String → Ty}
    {left right : Expr} {operands result : Ty} {stack : CallStack}
    {next : Value → Value → CallStack → Outcome Value} (hstack : stack.program = program)
    (hframe : stack.current.Fits locals) (hleft : left.HasType signature? locals operands)
    (hright : right.HasType signature? locals operands)
    (hnext : ∀ a b : Value, a.Fits operands → b.Fits operands →
      (next a b stack).EndsIn fun value after => value.Fits result ∧ after = stack) :
    ((WhileLang.eval fuel left stack).andThen fun a after =>
      (WhileLang.eval fuel right after).andThen fun b after => next a b after).EndsIn
        fun value after => value.Fits result ∧ after = stack := by
  refine (h.eval hstack hframe hleft).andThen ?_
  rintro a _ ⟨ha, rfl⟩
  refine (h.eval hstack hframe hright).andThen ?_
  rintro b _ ⟨hb, rfl⟩
  exact hnext a b ha hb

theorem eval_succ (hprogram : program.IsTyped signature?)
    (h : RespectsTypes program signature? fuel) {locals : String → Ty} {expr : Expr} {type : Ty}
    {stack : CallStack} (hstack : stack.program = program) (hframe : stack.current.Fits locals)
    (hexpr : expr.HasType signature? locals type) :
    (WhileLang.eval (fuel + 1) expr stack).EndsIn
      fun value after => value.Fits type ∧ after = stack := by
  cases hexpr with
  | literal value => exact ⟨value.fits_kind, rfl⟩
  | var name => exact ⟨CallStack.resolve_fits hframe name, rfl⟩
  | math hleft hright =>
    refine h.eval_both hstack hframe hleft hright fun a b ha hb => ?_
    obtain ⟨value, heq, hvalue⟩ := applyMath_fits ha hb
    rw [heq]
    exact ⟨hvalue, rfl⟩
  | compare hleft hright =>
    refine h.eval_both hstack hframe hleft hright fun a b ha hb => ?_
    obtain ⟨value, heq, hvalue⟩ := applyCompare_fits ha hb
    rw [heq]
    exact ⟨hvalue, rfl⟩
  | logic hleft hright =>
    exact h.eval_both hstack hframe hleft hright fun a b _ _ => ⟨applyLogic_fits _ a b, rfl⟩
  | not hoperand =>
    refine (h.eval hstack hframe hoperand).andThen ?_
    rintro a _ ⟨-, rfl⟩
    exact ⟨Or.inl rfl, rfl⟩
  | call hname hinstance hargs =>
    refine (h.evalArgs hstack hframe hargs).andThen ?_
    rintro values stack ⟨hvalues, rfl⟩
    unfold CallStack.function
    rw [hstack]
    split
    · rename_i error herror
      unfold Program.effective at herror
      split at herror
      · cases herror
      · cases herror
        exact fun _ _ _ => nofun
    · rename_i function hfunction
      refine (h.callFunction hstack hvalues (hprogram hfunction hname _ hinstance)).mono ?_
      intro value after hdone hvalue
      have hleaves := (evaluation_leaves fuel).callFunction function values stack
      rw [hdone] at hleaves
      exact ⟨hvalue, hleaves⟩

theorem evalArgs_succ (h : RespectsTypes program signature? fuel) {locals : String → Ty}
    {args : List Expr} {types : List Ty} {stack : CallStack} (hstack : stack.program = program)
    (hframe : stack.current.Fits locals)
    (hargs : Expr.ArgsHaveTypes signature? locals args types) :
    (WhileLang.evalArgs (fuel + 1) args stack).EndsIn fun values after =>
      List.Forall₂ Value.Fits values types ∧ after = stack := by
  cases hargs with
  | nil => exact ⟨.nil, rfl⟩
  | cons harg hrest =>
    refine (h.eval hstack hframe harg).andThen ?_
    rintro value _ ⟨hvalue, rfl⟩
    refine (h.evalArgs hstack hframe hrest).andThen ?_
    rintro values _ ⟨hvalues, rfl⟩
    exact ⟨.cons hvalue hvalues, rfl⟩

theorem exec_succ (h : RespectsTypes program signature? fuel) {locals : String → Ty} {stmt : Stmt}
    {stack : CallStack} (hstack : stack.program = program) (hframe : stack.current.Fits locals)
    (hstmt : stmt.IsTyped signature? locals) :
    (WhileLang.exec (fuel + 1) stmt stack).EndsIn fun _ after =>
      after.current.Fits locals ∧ after.program = program := by
  -- A condition leaves the stack as it is, whatever it is judged to be.
  have hcondition {condition : Expr} {next : Value → CallStack → Outcome Unit}
      (htype : condition.HasType signature? locals .bool)
      (hnext : ∀ judged, (next judged stack).EndsIn fun _ after =>
        after.current.Fits locals ∧ after.program = program) :
      ((WhileLang.eval fuel condition stack).andThen next).EndsIn fun _ after =>
        after.current.Fits locals ∧ after.program = program := by
    refine (h.eval hstack hframe htype).andThen ?_
    rintro judged _ ⟨-, rfl⟩
    exact hnext judged
  cases hstmt with
  | assign hvalue =>
    refine (h.eval hstack hframe hvalue).andThen ?_
    rintro value _ ⟨hvalue, rfl⟩
    exact ⟨hframe.set hvalue, hstack⟩
  | seq hfirst hsecond =>
    refine (h.exec hstack hframe hfirst).andThen fun _ after hafter => ?_
    exact h.exec hafter.2 hafter.1 hsecond
  | ifThen htype hbody =>
    refine hcondition htype fun judged => ?_
    split
    · exact h.exec hstack hframe hbody
    · exact ⟨hframe, hstack⟩
  | ifElse htype hbody halternative =>
    refine hcondition htype fun judged => ?_
    split
    · exact h.exec hstack hframe hbody
    · exact h.exec hstack hframe halternative
  | loop htype hbody =>
    refine hcondition htype fun judged => ?_
    split
    · refine (h.exec hstack hframe hbody).andThen fun _ after hafter => ?_
      exact h.exec hafter.2 hafter.1 (.loop htype hbody)
    · exact ⟨hframe, hstack⟩

theorem runFunction_succ (h : RespectsTypes program signature? fuel) {locals : String → Ty}
    {function : FunctionDef} {type : Ty} {stack : CallStack} (hstack : stack.program = program)
    (hframe : stack.current.Fits locals) (hfunction : function.Returns signature? locals type) :
    (WhileLang.runFunction (fuel + 1) function stack).EndsIn fun value after =>
      value.Fits type ∧ after.current.Fits locals := by
  have hresult {stack : CallStack} (hstack : stack.program = program)
      (hframe : stack.current.Fits locals) :
      (WhileLang.eval fuel function.result stack).EndsIn fun value after =>
        value.Fits type ∧ after.current.Fits locals := by
    refine (h.eval hstack hframe hfunction.result).mono ?_
    rintro value _ - ⟨hvalue, rfl⟩
    exact ⟨hvalue, hframe⟩
  unfold WhileLang.runFunction
  split
  · exact hresult hstack hframe
  · rename_i body hbody
    refine (h.exec hstack hframe (hfunction.body body hbody)).andThen fun _ after hafter => ?_
    exact hresult hafter.2 hafter.1

theorem callFunction_succ (h : RespectsTypes program signature? fuel) {function : FunctionDef}
    {args : List Value} {types : List Ty} {result : Ty} {stack : CallStack}
    (hstack : stack.program = program) (hargs : List.Forall₂ Value.Fits args types)
    (hfunction : function.HasType signature? (.arrows types result)) :
    (WhileLang.callFunction (fuel + 1) function args stack).EndsIn
      fun value _ => value.Fits result := by
  unfold WhileLang.callFunction
  split
  · rename_i hlength
    split
    · rename_i error herror
      unfold CallStack.enter at herror
      split at herror
      · cases herror
        exact fun _ _ _ => nofun
      · cases herror
    · rename_i entered hentered
      -- As many arguments as parameters, so the argument types are those of the parameters.
      obtain ⟨locals, result', harrows, hreturns⟩ := hfunction
      obtain ⟨rfl, rfl⟩ := Ty.arrows_inj (by simp [← hargs.length_eq, hlength]) harrows
      unfold CallStack.enter at hentered
      split at hentered
      · cases hentered
      · cases hentered
        refine Outcome.EndsIn.leaving ((h.runFunction ?_ ?_ hreturns).mono ?_)
        · exact hstack
        · exact .ofList hargs
        · exact fun value after _ hvalue => hvalue.1
  · exact fun _ _ _ => nofun

end RespectsTypes

/-- Typed parts of a typed program evaluate to what fits their types. -/
theorem evaluation_respectsTypes (h : program.IsTyped signature?) (fuel : Nat) :
    RespectsTypes program signature? fuel := by
  induction fuel with
  | zero => constructor <;> intros <;> trivial
  | succ fuel ih =>
    exact ⟨ih.eval_succ h, ih.evalArgs_succ, ih.exec_succ, ih.runFunction_succ,
      ih.callFunction_succ⟩

end

end WhileLang
