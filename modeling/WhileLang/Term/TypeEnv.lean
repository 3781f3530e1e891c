import WhileLang.Term
import WhileLang.Ty.Unification

/-!
# Typing environments

What the walk over a term collects: equations between types, a table of the terms passed, and the
types of variables and functions.

Main definitions:

- Type {lit}`TypeEnv`.
- Functions {lit}`TypeEnv.fresh` and {lit}`TypeEnv.instantiate`: new type variables.
- Function {lit}`TypeEnv.leaf`: the type of a name.
- Functions {lit}`TypeEnv.record` and {lit}`TypeEnv.positionOf`: the table of terms.
-/

namespace WhileLang

/-! ## Operators -/

/-- The type of an operator on two operands of one type. -/
private def operatorType (operands result : Ty) : Ty :=
  .arrow operands (.arrow operands result)

/-- The types of the names with a fixed meaning. -/
def builtinType? : String → Option Ty
  | "+" => some (operatorType .int .int)
  | "-" => some (operatorType .int .int)
  | "<" => some (operatorType .int .bool)
  | "<=" => some (operatorType .int .bool)
  | ">" => some (operatorType .int .bool)
  | ">=" => some (operatorType .int .bool)
  | "==" => some (operatorType .int .bool)
  | "!=" => some (operatorType .int .bool)
  | "&&" => some (operatorType .bool .bool)
  | "||" => some (operatorType .bool .bool)
  | "!" => some (.arrow .bool .bool)
  | "if" => some (.arrow .bool (.arrow .unit .unit))
  | "if-else" => some (.arrow .bool (.arrow .unit (.arrow .unit .unit)))
  | "while" => some (.arrow .bool (.arrow .unit .unit))
  | _ => none

/-- The names that have a type for every type, from that type. -/
def schemeType? : String → Option (Ty → Ty)
  | ":=" => some fun type => .arrow type (.arrow type .unit)
  | ";" => some fun type => .arrow .unit (.arrow type type)
  | "return" => some fun type => .arrow type type
  | _ => none

/-! ## The environment -/

/-- A row of the table of terms. -/
structure Subterm where
  /-- The number of the node; equal terms at different places are different nodes. -/
  node : Nat
  term : Term
  type : Ty
  /-- Where the rows of the parts of this term start; its own row comes last. -/
  first : Nat
deriving DecidableEq, Inhabited

/-- What a walk over terms has collected. -/
structure TypeEnv where
  constraints : Array Constraint := #[]
  subterms : Array Subterm := #[]
  /-- The types of variables. -/
  varTypes : List (TermVar × Ty) := []
  /-- The types of functions that are solved. -/
  signatures : List (String × Ty) := []
  /-- The number of the next type variable. -/
  nextVar : Nat := 0
  /-- The number of the next node. -/
  nextNode : Nat := 0

namespace TypeEnv

/-- The environment in which nothing was collected. -/
def empty : TypeEnv :=
  {}

/-! ## Numbers -/

/-- The type variable of a number. -/
def freshName (number : Nat) : String :=
  "a" ++ toString number

/-- A type variable that was not used before. -/
def fresh (env : TypeEnv) : Ty × TypeEnv :=
  (.var (freshName env.nextVar), { env with nextVar := env.nextVar + 1 })

/-- A number for a node. -/
def newNode (env : TypeEnv) : Nat × TypeEnv :=
  (env.nextNode, { env with nextNode := env.nextNode + 1 })

/-! ## Equations -/

/-- Demand that two types are equal. -/
def constrain (env : TypeEnv) (left right : Ty) : TypeEnv :=
  { env with constraints := env.constraints.push (left, right) }

/-- Solve all equations. -/
def solve (env : TypeEnv) : Except SemanticError Subst :=
  unify env.constraints.toList

/-- Solve the equations from a place on. -/
def solveFrom (env : TypeEnv) (mark : Nat) : Except SemanticError Subst :=
  unify (env.constraints.toList.drop mark)

/-! ## Names -/

/-- The type of a variable: a new type variable at its first use, and the same one later. -/
def variableType (env : TypeEnv) (var : TermVar) : Ty × TypeEnv :=
  match env.varTypes.lookup var with
  | some type => (type, env)
  | none =>
    let (type, env) := env.fresh
    (type, { env with varTypes := env.varTypes ++ [(var, type)] })

/-- Remember the type of a function that is solved; an earlier one is replaced. -/
def recordSignature (env : TypeEnv) (name : String) (type : Ty) : TypeEnv :=
  { env with signatures := Subst.rebind name type env.signatures }

/-- The type of a function that is solved. -/
def signature? (env : TypeEnv) (name : String) : Option Ty :=
  env.signatures.lookup name

/-- A new type variable for each of the given ones. -/
def renameFresh (env : TypeEnv) : List String → Subst × TypeEnv
  | [] => (.empty, env)
  | name :: names =>
    let (type, env) := env.fresh
    let (subst, env) := env.renameFresh names
    (⟨(name, type) :: subst.entries⟩, env)

/-- A type with new type variables in the places of its own. -/
def instantiate (env : TypeEnv) (type : Ty) : Ty × TypeEnv :=
  let (subst, env) := env.renameFresh type.vars
  (subst.apply type, env)

/-- The type of a global name that is no built-in one. -/
def globalLeaf (env : TypeEnv) (var : TermVar) : Ty × TypeEnv :=
  match schemeType? var.name with
  | some scheme =>
    let (type, env) := env.fresh
    (scheme type, env)
  | none =>
    match env.signature? var.name with
    | some type => env.instantiate type
    | none => env.variableType var

/--
The type of a name where it is used.  Built-in operators have fixed types, assignment, sequence and
return have a new one at each use, solved functions an instance of their type, and anything else is
a variable.
-/
def leaf (env : TypeEnv) (var : TermVar) : Ty × TypeEnv :=
  match var.scope with
  | some _ => env.variableType var
  | none =>
    match builtinType? var.name with
    | some type => (type, env)
    | none => env.globalLeaf var

/-! ## The table of terms -/

/-- Add a row to the table of terms. -/
def record (env : TypeEnv) (node : Nat) (term : Term) (type : Ty) (first : Nat) : TypeEnv :=
  { env with subterms := env.subterms.push ⟨node, term, type, first⟩ }

/-- The last row of a node. -/
def positionOf (env : TypeEnv) (node : Nat) : Option Nat :=
  (List.range env.subterms.size).findRev? fun index =>
    (env.subterms[index]?).any (·.node == node)

end TypeEnv

end WhileLang
