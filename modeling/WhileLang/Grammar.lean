import WhileLang.Parser.Rule
import WhileLang.Syntax
import WhileLang.Text.Decimal

/-!
# The grammar

The productions of the language, over four rules that refer to each other.

```text
  program    := function (";" function)*
  function   := "func" ident "(" [ident ("," ident)*] ")"
                "{" [block] [";"] "return" expr "}"
  block      := statement (";" statement)*
  statement  := ident ":=" expr
              | "if" logic block ["else" block] "end"
              | "while" logic block "end"
  expr       := logic | arith
  logic      := (call | logicTerm) (("&&" | "||") (call | logicTerm))*
  logicTerm  := boolean | comparison | "!" logicTerm | ident | "(" logic ")"
  comparison := arith ("<" | "<=" | ">" | ">=" | "==" | "!=") arith
  arith      := (call | arithTerm) (("+" | "-") (call | arithTerm))*
  arithTerm  := number | ident | "(" arith ")"
  call       := ident "(" [expr ("," expr)*] ")"
  number     := ["-"] digits
```

Main definitions:

- Function {lit}`Grammar.rules`: the four rules, unfolded to a given depth.
- Functions {lit}`Expr.parse`, {lit}`Stmt.parse` and {lit}`Program.parse`: the tree of a list of
  tokens.
-/

namespace WhileLang

/-- The rules that refer to each other. -/
inductive Nonterminal where
  | arithmetic
  | logic
  | logicTerm
  | block
deriving DecidableEq

/-- What a rule reads: the block reads statements, the others expressions. -/
@[reducible]
def Nonterminal.Tree : Nonterminal → Type
  | .block => Stmt
  | .arithmetic => Expr
  | .logic => Expr
  | .logicTerm => Expr

/-- The name of a rule in error messages. -/
def Nonterminal.name : Nonterminal → String
  | .arithmetic => "arithmetic expression"
  | .logic => "logic expression"
  | .logicTerm => "logic term"
  | .block => "block"

namespace Grammar

open WhileLang.Parser (tag literal optional separated reject)

/-- A parser that may run the rules of the language. -/
abbrev Production (α : Type) : Type :=
  Parser.OfGrammar Nonterminal Nonterminal.Tree α

/-- A parser for each rule. -/
abbrev Rules : Type :=
  (nonterminal : Nonterminal) → Production nonterminal.Tree

/-! ## Words -/

/-- An identifier. -/
def identifier : Production String :=
  tag .variable

/-- A variable is an identifier. -/
def variableName : Production Expr :=
  identifier.map .var

/-- A truth value. -/
def boolean : Production Expr :=
  (tag .boolean).map fun text => .bool (text = "true")

/-- Digits, perhaps after a sign, that make up a 64-bit integer. -/
def number : Production Expr := fun state =>
  match ((optional (literal "-")).seq (tag .number)) state with
  | (.error error, after) => (.error error, after)
  | (.ok (sign, digits), after) =>
    let text := sign.getD "" ++ digits
    match Decimal.readInt64 text with
    | .ok value => (.ok (.int value), after)
    | .error _ =>
      let back := after.restore state.index
      reject (back.errorHere ("integer literal " ++ text ++ " out of range")) back

/-! ## Expressions -/

/-- A comma between arguments or parameters, which may be missing altogether. -/
def commaList {α : Type} (item : Production α) : Production (List α) :=
  (optional (separated item ",")).map fun items => items.getD []

/-- Either a logical or an arithmetic expression. -/
def expression (rules : Rules) : Production Expr :=
  ((rules .logic).or (rules .arithmetic)).label "expression"

/-- A function name with arguments in parentheses. -/
def call (rules : Rules) : Production Expr :=
  (((identifier.skip (literal "(")).seq (commaList (expression rules))).skip (literal ")")).map
    fun (name, args) => .call name args

/-- An operator that joins two operands. -/
def operator (symbol : String) (join : Expr → Expr → Expr) : Production (Expr → Expr → Expr) :=
  (literal symbol).map fun _ => join

/-- An arithmetic operator. -/
def mathOperator : Production (Expr → Expr → Expr) :=
  (operator "+" (.math .add)).or (operator "-" (.math .sub))

/-- A logical operator. -/
def logicOperator : Production (Expr → Expr → Expr) :=
  (operator "&&" (.logic .and)).or (operator "||" (.logic .or))

/-- One comparison operator. -/
def comparisonSymbol (op : CompareOp) : Production CompareOp :=
  (literal op.symbol).map fun _ => op

/-- A comparison operator. -/
def comparisonOperator : Production CompareOp :=
  (((((comparisonSymbol .lt).or (comparisonSymbol .le)).or (comparisonSymbol .gt)).or
    (comparisonSymbol .ge)).or (comparisonSymbol .eq)).or (comparisonSymbol .ne)

/-- A number, a variable, or an arithmetic expression in parentheses. -/
def arithmeticTerm (rules : Rules) : Production Expr :=
  (number.or variableName).or (((literal "(").skipLeft (rules .arithmetic)).skip (literal ")"))

/-- Calls and terms joined by arithmetic operators, from the left. -/
def arithmetic (rules : Rules) : Production Expr :=
  ((call rules).or (arithmeticTerm rules)).chainLeft mathOperator

/-- Two arithmetic expressions with a comparison operator between them. -/
def comparison (rules : Rules) : Production Expr :=
  (((rules .arithmetic).seq comparisonOperator).seq (rules .arithmetic)).map
    fun ((left, op), right) => .compare op left right

/-- An operand of the logical operators that is no call. -/
def logicTerm (rules : Rules) : Production Expr :=
  let negation := ((literal "!").skipLeft (rules .logicTerm)).map .not
  let group := ((literal "(").skipLeft (rules .logic)).skip (literal ")")
  (((boolean.or (comparison rules)).or negation).or variableName).or group

/-- Calls and terms joined by logical operators, from the left. -/
def logic (rules : Rules) : Production Expr :=
  ((call rules).or (rules .logicTerm)).chainLeft logicOperator

/-! ## Statements -/

/-- An assignment. -/
def assignment (rules : Rules) : Production Stmt :=
  ((identifier.skip (literal ":=")).seq (expression rules)).map
    fun (name, value) => .assign name value

/-- A conditional statement, with or without an alternative. -/
def conditional (rules : Rules) : Production Stmt :=
  let alternative := optional ((literal "else").skipLeft (rules .block))
  (((((literal "if").skipLeft (rules .logic)).seq (rules .block)).seq alternative).skip
    (literal "end")).map
    fun ((condition, body), alternative) =>
      match alternative with
      | none => .ifThen condition body
      | some alternative => .ifElse condition body alternative

/-- A loop. -/
def loop (rules : Rules) : Production Stmt :=
  ((((literal "while").skipLeft (rules .logic)).seq (rules .block)).skip (literal "end")).map
    fun (condition, body) => .loop condition body

/-- Statements joined by semicolons, from the left. -/
def block (rules : Rules) : Production Stmt :=
  let statement := (((assignment rules).or (conditional rules)).or (loop rules)).label "statement"
  statement.chainLeft ((literal ";").map fun _ => .seq)

/-! ## Programs -/

/-- A function definition. -/
def function (rules : Rules) : Production FunctionDef :=
  let header := ((literal "func").skipLeft identifier).seq
    (((literal "(").skipLeft (commaList identifier)).skip (literal ")"))
  let body := ((literal "\x7b").skipLeft (optional (rules .block))).skip (optional (literal ";"))
  let result := ((literal "return").skipLeft (expression rules)).skip (literal "\x7d")
  ((header.seq body).seq result).map
    fun (((name, params), body), result) => { name, params, body, result }

/-- Function definitions joined by semicolons. -/
def program (rules : Rules) : Production Program :=
  (separated (function rules) ";").map fun functions => { functions }

/-! ## Whole inputs -/

/-- The production of each rule. -/
def production (rules : Rules) : (nonterminal : Nonterminal) → Production nonterminal.Tree
  | .arithmetic => arithmetic rules
  | .logic => logic rules
  | .logicTerm => logicTerm rules
  | .block => block rules

/-- The rules, unfolded to a depth. -/
def rules (sharing : Sharing) (depth : Nat) : Rules :=
  Parser.rule sharing Nonterminal.name
    (fun rules nonterminal => .body (production rules nonterminal)) depth

/--
A depth that no parse of the tokens exceeds: rules nested in each other at one index are different,
and there are four of them.
-/
def depthFor (tokens : List Token) : Nat :=
  4 * (tokens.length + 2)

/-- Read all of the tokens by a production over the rules. -/
def read {α : Type} (sharing : Sharing) (start : Rules → Production α) (tokens : List Token) :
    Except ParseError α :=
  (start (rules sharing (depthFor tokens))).complete.run tokens

end Grammar

/-- The expression that a list of tokens spells. -/
def Expr.parse (tokens : List Token) : Except ParseError Expr :=
  Grammar.read .stored Grammar.expression tokens

/-- The block that a list of tokens spells. -/
def Stmt.parse (tokens : List Token) : Except ParseError Stmt :=
  Grammar.read .stored (· .block) tokens

/-- The program that a list of tokens spells. -/
def Program.parse (tokens : List Token) : Except ParseError Program :=
  Grammar.read .stored Grammar.program tokens

end WhileLang
