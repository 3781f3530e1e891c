import WhileLang.Syntax

/-!
# Printing syntax trees

The canonical layout of programs: one statement a line, two spaces for each level of nesting, and
parentheses only where an operator chain would be read differently without them.

Main definitions:

- Functions {lit}`Expr.text`, {lit}`Stmt.text`, {lit}`FunctionDef.text` and {lit}`Program.text`.
-/

namespace WhileLang

/-! ## Expressions -/

/-- A text in parentheses. -/
def inParens (text : String) : String :=
  "(" ++ text ++ ")"

namespace Expr

/-- A right operand of an arithmetic operator is grouped if it is such a chain itself. -/
def isMath : Expr → Bool
  | .math .. => true
  | _ => false

/-- A right operand of a logical operator is grouped if it is such a chain itself. -/
def isLogic : Expr → Bool
  | .logic .. => true
  | _ => false

/-- The operands that a negation can stand before as they are. -/
def standsUnderNot : Expr → Bool
  | .literal (.bool _) => true
  | .var _ => true
  | .compare .. => true
  | .not _ => true
  | _ => false

/-- The written form of an expression. -/
def text : Expr → String
  | .literal value => value.text
  | .var name => name
  | .math op left right =>
    left.text ++ " " ++ op.symbol ++ " "
      ++ (if right.isMath then inParens right.text else right.text)
  | .compare op left right => left.text ++ " " ++ op.symbol ++ " " ++ right.text
  | .logic op left right =>
    left.text ++ " " ++ op.symbol ++ " "
      ++ (if right.isLogic then inParens right.text else right.text)
  | .not operand =>
    "!" ++ (if operand.standsUnderNot then operand.text else inParens operand.text)
  | .call name args => name ++ inParens (argsText args)
where
  /-- Arguments with commas between them. -/
  argsText : List Expr → String
    | [] => ""
    | [arg] => arg.text
    | arg :: args => arg.text ++ ", " ++ argsText args

end Expr

/-! ## Statements -/

/-- Two spaces for each level. -/
def indentation (level : Nat) : String :=
  String.ofList (List.replicate (2 * level) ' ')

namespace Stmt

/-- The statements of a block on lines of their own, at a level of nesting. -/
def textAt (level : Nat) : Stmt → String
  | .assign name value => indentation level ++ name ++ " := " ++ value.text
  | .seq first second => first.textAt level ++ ";\n" ++ second.textAt level
  | .ifThen condition body =>
    indentation level ++ "if " ++ condition.text ++ "\n"
      ++ body.textAt (level + 1) ++ "\n"
      ++ indentation level ++ "end"
  | .ifElse condition body alternative =>
    indentation level ++ "if " ++ condition.text ++ "\n"
      ++ body.textAt (level + 1) ++ "\n"
      ++ indentation level ++ "else\n"
      ++ alternative.textAt (level + 1) ++ "\n"
      ++ indentation level ++ "end"
  | .loop condition body =>
    indentation level ++ "while " ++ condition.text ++ "\n"
      ++ body.textAt (level + 1) ++ "\n"
      ++ indentation level ++ "end"

/-- The written form of a block. -/
def text (stmt : Stmt) : String :=
  stmt.textAt 0

end Stmt

/-! ## Functions and programs -/

/-- The written form of a function definition. -/
def FunctionDef.text (function : FunctionDef) : String :=
  "func " ++ function.name ++ inParens (", ".intercalate function.params) ++ " \x7b\n"
    ++ function.body.elim "" (fun body => body.textAt 1 ++ ";\n")
    ++ indentation 1 ++ "return " ++ function.result.text ++ "\n\x7d"

/-- The written form of a program: a blank line between functions, and a line ending at the end. -/
def Program.text (program : Program) : String :=
  ";\n\n".intercalate (program.functions.map FunctionDef.text) ++ "\n"

end WhileLang
