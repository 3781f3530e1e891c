import WhileLang.Proofs.Ty.Replacement
import WhileLang.Syntax.Lookup

/-!
# Typing rules

Types of expressions, statements and functions, told without unification.  A function that can be
called has a general type, and every call uses an instance of it; a variable has one type within a
function.

Main definitions:

- Relation {lit}`Ty.IsInstance`: a type arises from a general one by replacing variables.
- Relations {lit}`Expr.HasType` and {lit}`Stmt.IsTyped`: the rules, over the general types of
  functions and the types of variables.
- Relation {lit}`FunctionDef.HasType`: a function takes its parameters one after the other.
- Predicate {lit}`Program.IsTyped`: every function has all instances of its general type.
-/

namespace WhileLang

/-! ## Arrows and instances -/

namespace Ty

/-- The arrow from the given domains, the first one outermost, to a result. -/
def arrows (domains : List Ty) (result : Ty) : Ty :=
  domains.foldr .arrow result

@[simp]
theorem arrows_cons (domain : Ty) (domains : List Ty) (result : Ty) :
    arrows (domain :: domains) result = .arrow domain (arrows domains result) :=
  rfl

/-- Arrows from equally many domains are equal only if their domains and results are. -/
theorem arrows_inj {domains others : List Ty} {result other : Ty}
    (hlength : domains.length = others.length) (h : arrows domains result = arrows others other) :
    domains = others ∧ result = other := by
  induction domains generalizing others with
  | nil =>
    obtain rfl := List.length_eq_zero_iff.1 hlength.symm
    exact ⟨rfl, h⟩
  | cons domain rest ih =>
    cases others with
    | nil => simp at hlength
    | cons domain' rest' =>
      simp only [arrows_cons, arrow.injEq] at h
      obtain ⟨rfl, rfl⟩ := ih (by simpa using hlength) h.2
      exact ⟨by rw [h.1], rfl⟩

/-- A type arises from a general one by replacing variables. -/
def IsInstance (type general : Ty) : Prop :=
  ∃ f : String → Ty, type = general.replace f

theorem IsInstance.replace {type general : Ty} (h : type.IsInstance general) (f : String → Ty) :
    (type.replace f).IsInstance general := by
  obtain ⟨g, rfl⟩ := h
  exact ⟨_, replace_replace g f general⟩

/-- What is left of a type after a number of arguments. -/
def resultAfter? : Nat → Ty → Option Ty
  | 0, type => some type
  | count + 1, .arrow _ codomain => codomain.resultAfter? count
  | _ + 1, .var _ => none
  | _ + 1, .con _ => none

theorem resultAfter?_arrows (domains : List Ty) (result : Ty) :
    (arrows domains result).resultAfter? domains.length = some result := by
  induction domains with
  | nil => rfl
  | cons domain rest ih => exact ih

end Ty

/-! ## Expressions and statements -/

section Rules

variable (signature? : String → Option Ty) (locals : String → Ty)

mutual

/-- An expression has a type, over the general types of functions and the types of variables. -/
inductive Expr.HasType : Expr → Ty → Prop where
  | literal (value : Value) : HasType (.literal value) (.con value.kind)
  | var (name : String) : HasType (.var name) (locals name)
  | math {op : MathOp} {left right : Expr} (hleft : HasType left .int)
      (hright : HasType right .int) : HasType (.math op left right) .int
  | compare {op : CompareOp} {left right : Expr} (hleft : HasType left .int)
      (hright : HasType right .int) : HasType (.compare op left right) .bool
  | logic {op : LogicOp} {left right : Expr} (hleft : HasType left .bool)
      (hright : HasType right .bool) : HasType (.logic op left right) .bool
  | not {operand : Expr} (hoperand : HasType operand .bool) : HasType (.not operand) .bool
  | call {name : String} {args : List Expr} {types : List Ty} {general result : Ty}
      (hname : signature? name = some general)
      (hinstance : (Ty.arrows types result).IsInstance general)
      (hargs : ArgsHaveTypes args types) : HasType (.call name args) result

/-- Arguments have types one by one. -/
inductive Expr.ArgsHaveTypes : List Expr → List Ty → Prop where
  | nil : ArgsHaveTypes [] []
  | cons {arg : Expr} {args : List Expr} {type : Ty} {types : List Ty} (harg : HasType arg type)
      (hargs : ArgsHaveTypes args types) : ArgsHaveTypes (arg :: args) (type :: types)

end

/-- A statement follows the rules: conditions are boolean, and variables keep their types. -/
inductive Stmt.IsTyped : Stmt → Prop where
  | assign {name : String} {value : Expr} (hvalue : value.HasType signature? locals (locals name)) :
      IsTyped (.assign name value)
  | seq {first second : Stmt} (hfirst : IsTyped first) (hsecond : IsTyped second) :
      IsTyped (.seq first second)
  | ifThen {condition : Expr} {body : Stmt}
      (hcondition : condition.HasType signature? locals .bool) (hbody : IsTyped body) :
      IsTyped (.ifThen condition body)
  | ifElse {condition : Expr} {body alternative : Stmt}
      (hcondition : condition.HasType signature? locals .bool) (hbody : IsTyped body)
      (halternative : IsTyped alternative) : IsTyped (.ifElse condition body alternative)
  | loop {condition : Expr} {body : Stmt} (hcondition : condition.HasType signature? locals .bool)
      (hbody : IsTyped body) : IsTyped (.loop condition body)

/-! ## Functions and programs -/

/-- The body of a function follows the rules, and its result has a type. -/
structure FunctionDef.Returns (function : FunctionDef) (result : Ty) : Prop where
  body : ∀ body ∈ function.body, body.IsTyped signature? locals
  result : function.result.HasType signature? locals result

end Rules

/-- A function takes its parameters one after the other, and returns its result. -/
def FunctionDef.HasType (signature? : String → Option Ty) (function : FunctionDef) (type : Ty) :
    Prop :=
  ∃ (locals : String → Ty) (result : Ty),
    type = .arrows (function.params.map locals) result
      ∧ function.Returns signature? locals result

/-- Every function that has a general type has all instances of it. -/
def Program.IsTyped (program : Program) (signature? : String → Option Ty) : Prop :=
  ∀ {name : String} {function : FunctionDef} {general : Ty},
    program.effective name = .ok function → signature? name = some general →
      ∀ type : Ty, type.IsInstance general → function.HasType signature? type

end WhileLang
