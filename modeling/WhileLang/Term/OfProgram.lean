import WhileLang.Syntax.Lookup
import WhileLang.Term

/-!
# Programs as terms

For typing, a program is written as one term.  Statements and operators become applications of
names, a function abstracts over its parameters, and a program defines every function but its entry
point in front of the term of the entry point.

```text
  x := e              ((:= x::f) e)
  s; t                ((; s) t)
  if c s end          ((if c) s)
  if c s else t end   (((if-else c) s) t)
  while c s end       ((while c) s)
  a + b               ((+ a) b)
  !a                  (! a)
  g(a, b)             ((g a) b)
```

Main definitions:

- Function {lit}`Program.bindingOrder`: the functions, each after those it calls.
- Type {lit}`ProgramTerm` and function {lit}`Program.toTerm`.
-/

namespace WhileLang

/-! ## Expressions and statements -/

/-- An operator applied to two terms, of which the left one fails first. -/
def Term.binaryOf (operator : String) (left right : Except SemanticError Term) :
    Except SemanticError Term := do
  return .binary operator (← left) (← right)

namespace Expr

/-- The term of an expression within a function. -/
def toTerm (program : Program) (scope : String) : Expr → Except SemanticError Term
  | .literal value => .ok (.literal value)
  | .var name => .ok (.var (.ofFunction name scope))
  | .math op left right =>
    Term.binaryOf op.symbol (left.toTerm program scope) (right.toTerm program scope)
  | .compare op left right =>
    Term.binaryOf op.symbol (left.toTerm program scope) (right.toTerm program scope)
  | .logic op left right =>
    Term.binaryOf op.symbol (left.toTerm program scope) (right.toTerm program scope)
  | .not operand => do
    return .app (.global "!") (← operand.toTerm program scope)
  | .call name args =>
    if program.defines name then applyTo program scope (.global name) args
    else .error (.unknownFunction name)
where
  /-- A term applied to the terms of arguments, one after the other. -/
  applyTo (program : Program) (scope : String) (function : Term) :
      List Expr → Except SemanticError Term
    | [] => .ok function
    | arg :: args => do
      applyTo program scope (.app function (← arg.toTerm program scope)) args

end Expr

/-- The term of a statement within a function. -/
def Stmt.toTerm (program : Program) (scope : String) : Stmt → Except SemanticError Term
  | .assign name value =>
    Term.binaryOf ":=" (.ok (.var (.ofFunction name scope))) (value.toTerm program scope)
  | .seq first second =>
    Term.binaryOf ";" (first.toTerm program scope) (second.toTerm program scope)
  | .ifThen condition body =>
    Term.binaryOf "if" (condition.toTerm program scope) (body.toTerm program scope)
  | .ifElse condition body alternative => do
    let chosen ← Term.binaryOf "if-else" (condition.toTerm program scope)
      (body.toTerm program scope)
    return .app chosen (← alternative.toTerm program scope)
  | .loop condition body =>
    Term.binaryOf "while" (condition.toTerm program scope) (body.toTerm program scope)

namespace FunctionDef

/-- The term that abstracts over the parameters of a function, the first one outermost. -/
def abstract (function : FunctionDef) (body : Term) : Term :=
  function.params.foldr (fun param term => .abs (.ofFunction param function.name) term) body

/-- The term of a function. -/
def toTerm (program : Program) (function : FunctionDef) : Except SemanticError Term := do
  let result := Term.app (.global "return") (← function.result.toTerm program function.name)
  match function.body with
  | none => return function.abstract result
  | some body =>
    return function.abstract (.binary ";" (← body.toTerm program function.name) result)

end FunctionDef

/-! ## The order of functions -/

/-- The names met so far by a search through calls, and those whose search has ended. -/
structure CallSearch where
  visited : List String := []
  order : List String := []

/--
Search through the calls of a function, depth first, and list it after those it calls.  The search
passes through at most as many nested calls as given; a program has no deeper search than it has
functions.
-/
def Program.visit (program : Program) : Nat → CallSearch → String → CallSearch
  | 0, search, _ => search
  | depth + 1, search, name =>
    if name = entryPoint ∨ name ∈ search.visited then search
    else
      let entered := { search with visited := name :: search.visited }
      let left :=
        match program.function? name with
        | none => entered
        | some function => function.callees.foldl (program.visit depth) entered
      { left with order := left.order ++ [name] }

/-- The functions but the entry point, each after the functions it calls where that is possible. -/
def Program.bindingOrder (program : Program) : List String :=
  ((program.functions.map (·.name)).foldl
    (program.visit (program.functions.length + 2)) {}).order

/-! ## Programs -/

/-- A program as a term. -/
structure ProgramTerm where
  /-- The whole program. -/
  whole : Term
  /-- The part that stands for the entry point. -/
  main : Term
  /-- The other functions in the order they are defined. -/
  order : List String
deriving DecidableEq

/-- A term behind the definition of a function. -/
def Program.define (program : Program) (name : String) (body : Term) :
    Except SemanticError Term := do
  let function ← program.effective name
  return .letIn (.global name) (← function.toTerm program) body

/-- A term behind the definitions of functions, of which the last is looked at first. -/
def Program.defineAll (program : Program) (body : Term) : List String → Except SemanticError Term
  | [] => .ok body
  | name :: names => do
    program.define name (← program.defineAll body names)

/-- The term of a program. -/
def Program.toTerm (program : Program) : Except SemanticError ProgramTerm := do
  let main ← (← program.effective entryPoint).toTerm program
  let order := program.bindingOrder
  return { whole := ← program.defineAll main order, main, order }

end WhileLang
