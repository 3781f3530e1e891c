import WhileLang.Ty

/-!
# Semantic errors

What can go wrong with a program after it was parsed: names, types and runs.

Main definitions:

- Type {lit}`SemanticError`: the causes.
- Function {lit}`SemanticError.message`: the wording of each cause.
-/

namespace WhileLang

/-- A failure to type or to run a program. -/
inductive SemanticError where
  /-- A call, or the start of a run, names a function that is not defined. -/
  | unknownFunction (name : String)
  /-- Two types that had to be equal have different constructors. -/
  | typeMismatch (left right : Ty)
  /-- A variable would have to equal an arrow that contains it. -/
  | infiniteType (name : String) (type : Ty)
  /-- A variable that has a type already was given another one. -/
  | conflictingSubstitution (var existing proposed : Ty)
  /-- A solution does not make two types equal. -/
  | inconsistentSolution (left right : Ty)
  | arityMismatch (function : String) (expected found : Nat)
  /-- An operator was applied to values of a kind it does not take. -/
  | operandMismatch (operator left right : String)
  | callDepthExceeded (function : String) (limit : Nat)
  /-- A run could not be started. -/
  | evaluatorUnavailable (reason : String)
deriving DecidableEq

/-- The wording of a semantic error. -/
def SemanticError.message : SemanticError → String
  | .unknownFunction name => "unknown function: " ++ name
  | .typeMismatch left right =>
    "type mismatch: cannot unify " ++ left.text ++ " with " ++ right.text
  | .infiniteType name type =>
    "cannot construct infinite type: " ++ Ty.varText name ++ " = " ++ type.text
  | .conflictingSubstitution var existing proposed =>
    "conflicting substitution for " ++ var.text ++ ": already " ++ existing.text ++ ", now "
      ++ proposed.text
  | .inconsistentSolution left right =>
    "inconsistent solution: " ++ left.text ++ " and " ++ right.text
      ++ " differ after substitution"
  | .arityMismatch function expected found =>
    "function " ++ function ++ " expects " ++ toString expected ++ " argument(s), got "
      ++ toString found
  | .operandMismatch operator left right =>
    "operator " ++ operator ++ " cannot be applied to " ++ left ++ " and " ++ right
  | .callDepthExceeded function limit =>
    "call to " ++ function ++ " exceeds the maximum call depth of " ++ toString limit
  | .evaluatorUnavailable reason => "could not start the evaluator: " ++ reason

end WhileLang
