import WhileLang.Value

/-!
# Syntax trees

Expressions, statements, functions and programs of the language.

Main definitions:

- Types {lit}`Expr`, {lit}`Stmt`, {lit}`FunctionDef` and {lit}`Program`, all with decidable
  equality.
- Function {lit}`Program.function?`: the effective definition of a name is the last one.
- Functions {lit}`Expr.callees`, {lit}`Stmt.callees` and {lit}`FunctionDef.callees`: the names that
  a tree calls, in the order they are written.
-/

namespace WhileLang

/-! ## Operators -/

/-- The arithmetic operators. -/
inductive MathOp where
  | add
  | sub
deriving DecidableEq

/-- The comparison operators. -/
inductive CompareOp where
  | lt
  | le
  | gt
  | ge
  | eq
  | ne
deriving DecidableEq

/-- The binary logical operators. -/
inductive LogicOp where
  | and
  | or
deriving DecidableEq

/-- The written form of an arithmetic operator. -/
def MathOp.symbol : MathOp → String
  | .add => "+"
  | .sub => "-"

/-- The written form of a comparison operator. -/
def CompareOp.symbol : CompareOp → String
  | .lt => "<"
  | .le => "<="
  | .gt => ">"
  | .ge => ">="
  | .eq => "=="
  | .ne => "!="

/-- The written form of a logical operator. -/
def LogicOp.symbol : LogicOp → String
  | .and => "&&"
  | .or => "||"

/-! ## Expressions -/

/-- An expression. -/
inductive Expr where
  | literal (value : Value)
  | var (name : String)
  | math (op : MathOp) (left right : Expr)
  | compare (op : CompareOp) (left right : Expr)
  | logic (op : LogicOp) (left right : Expr)
  | not (operand : Expr)
  | call (name : String) (args : List Expr)

namespace Expr

instance : Inhabited Expr := ⟨.literal default⟩

mutual

/-- Equality of expressions is decided constructor by constructor. -/
def decEq : (left right : Expr) → Decidable (left = right)
  | .literal v, .literal w => decidable_of_iff (v = w) (by simp)
  | .var x, .var y => decidable_of_iff (x = y) (by simp)
  | .math o a b, .math p c d =>
    have := decEq a c
    have := decEq b d
    decidable_of_iff (o = p ∧ a = c ∧ b = d) (by simp)
  | .compare o a b, .compare p c d =>
    have := decEq a c
    have := decEq b d
    decidable_of_iff (o = p ∧ a = c ∧ b = d) (by simp)
  | .logic o a b, .logic p c d =>
    have := decEq a c
    have := decEq b d
    decidable_of_iff (o = p ∧ a = c ∧ b = d) (by simp)
  | .not a, .not b =>
    have := decEq a b
    decidable_of_iff (a = b) (by simp)
  | .call f as, .call g bs =>
    have := decEqList as bs
    decidable_of_iff (f = g ∧ as = bs) (by simp)
  | .literal _, .var _ | .literal _, .math .. | .literal _, .compare .. | .literal _, .logic ..
  | .literal _, .not _ | .literal _, .call ..
  | .var _, .literal _ | .var _, .math .. | .var _, .compare .. | .var _, .logic ..
  | .var _, .not _ | .var _, .call ..
  | .math .., .literal _ | .math .., .var _ | .math .., .compare .. | .math .., .logic ..
  | .math .., .not _ | .math .., .call ..
  | .compare .., .literal _ | .compare .., .var _ | .compare .., .math .. | .compare .., .logic ..
  | .compare .., .not _ | .compare .., .call ..
  | .logic .., .literal _ | .logic .., .var _ | .logic .., .math .. | .logic .., .compare ..
  | .logic .., .not _ | .logic .., .call ..
  | .not _, .literal _ | .not _, .var _ | .not _, .math .. | .not _, .compare ..
  | .not _, .logic .. | .not _, .call ..
  | .call .., .literal _ | .call .., .var _ | .call .., .math .. | .call .., .compare ..
  | .call .., .logic .. | .call .., .not _ => isFalse nofun

/-- Equality of argument lists is decided item by item. -/
def decEqList : (left right : List Expr) → Decidable (left = right)
  | [], [] => isTrue rfl
  | [], _ :: _ | _ :: _, [] => isFalse nofun
  | a :: as, b :: bs =>
    have := decEq a b
    have := decEqList as bs
    decidable_of_iff (a = b ∧ as = bs) (by simp)

end

instance : DecidableEq Expr := decEq

/-- An integer literal. -/
abbrev int (number : Int64) : Expr :=
  .literal (.int number)

/-- A boolean literal. -/
abbrev bool (truth : Bool) : Expr :=
  .literal (.bool truth)

/-- Names of the functions an expression calls, a call before the calls in its arguments. -/
def callees : Expr → List String
  | .literal _ => []
  | .var _ => []
  | .math _ left right => left.callees ++ right.callees
  | .compare _ left right => left.callees ++ right.callees
  | .logic _ left right => left.callees ++ right.callees
  | .not operand => operand.callees
  | .call name args => name :: calleesOfArgs args
where
  /-- Names of the functions called in an argument list. -/
  calleesOfArgs : List Expr → List String
    | [] => []
    | arg :: args => arg.callees ++ calleesOfArgs args

end Expr

/-! ## Statements -/

/-- A statement; blocks are statements chained by {lit}`seq`. -/
inductive Stmt where
  | assign (name : String) (value : Expr)
  | seq (first second : Stmt)
  | ifThen (condition : Expr) (body : Stmt)
  | ifElse (condition : Expr) (body alternative : Stmt)
  | loop (condition : Expr) (body : Stmt)
deriving DecidableEq, Inhabited

namespace Stmt

/-- The statements of a block, however its chain is nested. -/
def flatten : Stmt → List Stmt
  | .seq first second => first.flatten ++ second.flatten
  | other => [other]

/-- Names of the functions a statement calls, in the order they are written. -/
def callees : Stmt → List String
  | .assign _ value => value.callees
  | .seq first second => first.callees ++ second.callees
  | .ifThen condition body => condition.callees ++ body.callees
  | .ifElse condition body alternative =>
    condition.callees ++ (body.callees ++ alternative.callees)
  | .loop condition body => condition.callees ++ body.callees

end Stmt

/-! ## Functions and programs -/

/-- A function has parameters, perhaps a body, and an expression it returns. -/
structure FunctionDef where
  name : String
  params : List String
  body : Option Stmt
  result : Expr
deriving DecidableEq, Inhabited

/-- Names of the functions a definition calls, those of the body before those of the result. -/
def FunctionDef.callees (function : FunctionDef) : List String :=
  (function.body.elim [] Stmt.callees) ++ function.result.callees

/-- A program is its function definitions in source order. -/
structure Program where
  functions : List FunctionDef
deriving DecidableEq, Inhabited

/-- The name of the function a run starts with. -/
def entryPoint : String :=
  "main"

namespace Program

/-- The effective definition of a name: a later definition replaces an earlier one. -/
def function? (program : Program) (name : String) : Option FunctionDef :=
  program.functions.findRev? (·.name == name)

/-- The function a run starts with, if it is defined. -/
def main? (program : Program) : Option FunctionDef :=
  program.function? entryPoint

end Program

end WhileLang
