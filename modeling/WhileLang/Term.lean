import WhileLang.Value

/-!
# Terms

The small lambda calculus in which programs are typed.

Main definitions:

- Types {lit}`TermVar` and {lit}`Term`.
- Function {lit}`Term.text`: the printed form, by which reports tell terms apart.
-/

namespace WhileLang

/-- A variable of a term.  A local one belongs to a function; operators and functions are global. -/
structure TermVar where
  name : String
  scope : Option String
deriving DecidableEq, Inhabited

namespace TermVar

/-- A variable that belongs to a function. -/
def ofFunction (name function : String) : TermVar :=
  ⟨name, some function⟩

/-- The name of an operator or of a function. -/
def global (name : String) : TermVar :=
  ⟨name, none⟩

/-- A local variable prints with its function. -/
def text (var : TermVar) : String :=
  match var.scope with
  | none => var.name
  | some scope => var.name ++ "::" ++ scope

end TermVar

/-- A term. -/
inductive Term where
  | var (leaf : TermVar)
  | literal (value : Value)
  | app (function argument : Term)
  | abs (param : TermVar) (body : Term)
  | letIn (name : TermVar) (bound body : Term)
deriving DecidableEq, Inhabited

namespace Term

/-- The name of an operator or of a function as a term. -/
def global (name : String) : Term :=
  .var (.global name)

/-- An operator applied to two terms. -/
def binary (operator : String) (left right : Term) : Term :=
  .app (.app (global operator) left) right

/-- Whether a term is a definition in front of another term. -/
def isLet : Term → Bool
  | .letIn .. => true
  | _ => false

/-- The printed form of a term. -/
def text : Term → String
  | .var leaf => leaf.text
  | .literal value => value.text
  | .app function argument => "(" ++ function.text ++ " " ++ argument.text ++ ")"
  | .abs param body => "\\" ++ param.text ++ ". " ++ body.text
  | .letIn name bound body =>
    "let " ++ name.text ++ " = " ++ bound.text ++ " in " ++ body.text

end Term

end WhileLang
