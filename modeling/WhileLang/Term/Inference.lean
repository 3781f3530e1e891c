import WhileLang.Term.TypeEnv
import WhileLang.Term.OfProgram
import WhileLang.TypeReport

/-!
# Type inference

Every node of a term gets a type variable and demands one equation.

```text
  \x. e           type = type(x) -> type(e)
  f e             type(f) = type(e) -> type
  let x = b in e  type = type(e)
  42, true        type = Int, type = Bool
  name            type = the type of the name
```

A definition is solved on the spot: the equations demanded since it began give the function its
type, and every later use of the function gets an instance of that type.  Within its own body a
function has one type.

Main definitions:

- Function {lit}`Term.infer`: the walk over a term, which keeps what was collected also where it
  fails.
- Function {lit}`Program.inferTypes`: the types of a program.
-/

namespace WhileLang

/-! ## Reports -/

/-- The first pair of each printed form. -/
def distinctByPrint (printed : List (String × Ty)) : List (String × Ty) :=
  printed.foldl
    (fun kept pair => if kept.any (·.1 = pair.1) then kept else kept ++ [pair]) []

namespace TypeEnv

/-- The report of a function whose terms have the rows from a first one up to a last one. -/
def report (env : TypeEnv) (name : String) (signature : Ty) (first stop : Nat)
    (solution : Subst) : FunctionTypes where
  name := name
  signature := signature
  subterms :=
    let rows := ((env.subterms.toList.take stop).drop first).filter (!·.term.isLet)
    distinctByPrint (rows.map fun row => (row.term.text, solution.apply row.type))

end TypeEnv

/-! ## The walk -/

/-- What a walk has collected, and the reports of the functions that are solved. -/
structure Inference where
  env : TypeEnv := {}
  reports : List FunctionTypes := []

namespace Inference

/-- The inference before the first term. -/
def empty : Inference :=
  {}

/-- Change the environment. -/
def withEnv (inference : Inference) (change : TypeEnv → TypeEnv) : Inference :=
  { inference with env := change inference.env }

/-- Report a definition that is solved, and remember its type. -/
def define (inference : Inference) (name : String) (signature : Ty) (first : Nat)
    (solution : Subst) : Inference where
  env := inference.env.recordSignature name signature
  reports := inference.reports
    ++ [inference.env.report name signature first inference.env.subterms.size solution]

end Inference

namespace TypeEnv

/-- The row of a parameter, which comes before those of the body. -/
def recordParam (env : TypeEnv) (param : TermVar) : Ty × TypeEnv :=
  let (type, env) := env.variableType param
  let (node, env) := env.newNode
  (type, env.record node (.var param) type env.subterms.size)

end TypeEnv

/--
Walk over a term, and return its type variable.  A walk that fails leaves what was collected up to
there, without the rows of the nodes it was within.
-/
def Term.infer (term : Term) (inference : Inference) : Except SemanticError Ty × Inference :=
  let first := inference.env.subterms.size
  let (node, env) := inference.env.newNode
  let (type, env) := env.fresh
  let inference := { inference with env }
  let finish (inference : Inference) : Except SemanticError Ty × Inference :=
    (.ok type, inference.withEnv (·.record node term type first))
  match term with
  | .literal value => finish (inference.withEnv (·.constrain type (.con value.kind)))
  | .var leaf =>
    let (leafType, env) := inference.env.leaf leaf
    finish { inference with env := env.constrain type leafType }
  | .abs param body =>
    let (paramType, env) := inference.env.recordParam param
    match body.infer { inference with env } with
    | (.error error, inference) => (.error error, inference)
    | (.ok bodyType, inference) =>
      finish (inference.withEnv (·.constrain type (.arrow paramType bodyType)))
  | .app function argument =>
    match function.infer inference with
    | (.error error, inference) => (.error error, inference)
    | (.ok functionType, inference) =>
      match argument.infer inference with
      | (.error error, inference) => (.error error, inference)
      | (.ok argumentType, inference) =>
        finish (inference.withEnv (·.constrain functionType (.arrow argumentType type)))
  | .letIn name bound body =>
    let mark := inference.env.constraints.size
    let (recursive, env) := inference.env.variableType name
    match bound.infer { inference with env } with
    | (.error error, inference) => (.error error, inference)
    | (.ok boundType, inference) =>
      let inference := inference.withEnv (·.constrain recursive boundType)
      match inference.env.solveFrom mark with
      | .error error => (.error error, inference)
      | .ok solution =>
        let signature := solution.apply boundType
        match body.infer (inference.define name.name signature first solution) with
        | (.error error, inference) => (.error error, inference)
        | (.ok bodyType, inference) => finish (inference.withEnv (·.constrain type bodyType))

/-! ## Programs -/

/--
Infer the types of a program.  Each definition in front of the entry point has its own row after
that of the entry point, which is how the row of the entry point is found.
-/
def Program.inferTypes (program : Program) : Except SemanticError ProgramTypes := do
  let term ← program.toTerm
  let (result, inference) := term.whole.infer .empty
  let _ ← result
  let env := inference.env
  let solution ← env.solve
  let index := env.subterms.size - 1 - term.order.length
  match env.subterms[index]? with
  | none => .error (.unknownFunction entryPoint)
  | some row =>
    return {
      functions := inference.reports
      main := env.report entryPoint (solution.apply row.type) row.first (index + 1) solution }

end WhileLang
