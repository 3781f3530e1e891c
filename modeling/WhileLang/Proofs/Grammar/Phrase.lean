import WhileLang.Proofs.Text.Numerals
import WhileLang.Syntax
import WhileLang.Token

/-!
# Phrases

The context-free grammar of the language: which lists of lexemes are phrases of a category, and the
trees they spell.  Nothing is said about how a phrase is found.

```text
  number     := ["-"] digits
  arithTerm  := number | ident | "(" arith ")"
  arith      := (call | arithTerm) (("+" | "-") (call | arithTerm))*
  comparison := arith ("<" | "<=" | ">" | ">=" | "==" | "!=") arith
  logicTerm  := boolean | comparison | "!" logicTerm | ident | "(" logic ")"
  logic      := (call | logicTerm) (("&&" | "||") (call | logicTerm))*
  call       := ident "(" [expr ("," expr)*] ")"
  expr       := logic | arith
  statement  := ident ":=" expr
              | "if" logic block ["else" block] "end"
              | "while" logic block "end"
  block      := statement (";" statement)*
  function   := "func" ident "(" [ident ("," ident)*] ")"
                "\x7b" [block] [";"] "return" expr "\x7d"
  program    := function (";" function)*
```

Main definitions:

- Type {lit}`Language`: lists of lexemes with what they spell.
- Relations {lit}`Chain` and {lit}`SeparatedBy`: items with separators between them.
- Relations {lit}`Phrase.Expression`, {lit}`Phrase.Block` and {lit}`Phrase.Program`, over those of
  the other categories.
-/

namespace WhileLang

/-- Lists of lexemes related to what they spell. -/
abbrev Language (α : Type) : Type :=
  List Lexeme → α → Prop

/-! ## Repetition -/

section

variable {α : Type}

/-- What follows an item in a chain, folded from the left to what came before. -/
inductive ChainFrom (item : List Lexeme → α → Prop)
    (separator : List Lexeme → (α → α → α) → Prop) : α → List Lexeme → α → Prop where
  | stop (folded : α) : ChainFrom item separator folded [] folded
  | round {folded next result : α} {combine : α → α → α} {u v w : List Lexeme}
      (hseparator : separator u combine) (hitem : item v next)
      (hrest : ChainFrom item separator (combine folded next) w result) :
      ChainFrom item separator folded (u ++ (v ++ w)) result

/-- Items with separators between them, folded from the left with what the separators spell. -/
inductive Chain (item : List Lexeme → α → Prop)
    (separator : List Lexeme → (α → α → α) → Prop) : List Lexeme → α → Prop where
  | intro {first result : α} {u v : List Lexeme} (hfirst : item u first)
      (hrest : ChainFrom item separator first v result) : Chain item separator (u ++ v) result

/-- One or more items with a word between any two. -/
inductive SeparatedBy (word : Reserved) (item : List Lexeme → α → Prop) :
    List Lexeme → List α → Prop where
  | one {u : List Lexeme} {value : α} (hitem : item u value) : SeparatedBy word item u [value]
  | cons {u v : List Lexeme} {value : α} {values : List α} (hitem : item u value)
      (hrest : SeparatedBy word item v values) :
      SeparatedBy word item (u ++ .reserved word :: v) (value :: values)

/-- Items with commas between them, or nothing at all. -/
inductive CommaList (item : List Lexeme → α → Prop) : List Lexeme → List α → Prop where
  | none : CommaList item [] []
  | some {u : List Lexeme} {values : List α} (h : SeparatedBy .comma item u values) :
      CommaList item u values

end

namespace Phrase

/-! ## Expressions -/

/-- A variable or another name. -/
inductive Identifier : List Lexeme → String → Prop where
  | intro (name : String) : Identifier [.identifier name] name

/-- A 64-bit integer, the sign of which counts for whether it is one. -/
inductive Number : List Lexeme → Expr → Prop where
  | unsigned {digits : String} {value : Int64} (h : Decimal.Denotes digits value) :
      Number [.integer digits] (.int value)
  | negative {digits : String} {value : Int64} (h : Decimal.Denotes ("-" ++ digits) value) :
      Number [.reserved .minus, .integer digits] (.int value)

inductive Boolean : List Lexeme → Expr → Prop where
  | true : Boolean [.reserved .trueWord] (.bool true)
  | false : Boolean [.reserved .falseWord] (.bool false)

inductive MathOperator : List Lexeme → (Expr → Expr → Expr) → Prop where
  | add : MathOperator [.reserved .plus] (.math .add)
  | sub : MathOperator [.reserved .minus] (.math .sub)

inductive LogicOperator : List Lexeme → (Expr → Expr → Expr) → Prop where
  | and : LogicOperator [.reserved .logicalAnd] (.logic .and)
  | or : LogicOperator [.reserved .logicalOr] (.logic .or)

inductive ComparisonOperator : List Lexeme → CompareOp → Prop where
  | lt : ComparisonOperator [.reserved .lessThan] .lt
  | le : ComparisonOperator [.reserved .lessEquals] .le
  | gt : ComparisonOperator [.reserved .greaterThan] .gt
  | ge : ComparisonOperator [.reserved .greaterEquals] .ge
  | eq : ComparisonOperator [.reserved .doubleEquals] .eq
  | ne : ComparisonOperator [.reserved .notEquals] .ne

mutual

/-- A name with expressions in parentheses. -/
inductive Call : List Lexeme → Expr → Prop where
  | intro (name : String) {u : List Lexeme} {args : List Expr}
      (hargs : CommaList Expression u args) :
      Call (.identifier name :: .reserved .leftParen :: (u ++ [.reserved .rightParen]))
        (.call name args)

/-- A number, a variable, or an arithmetic expression in parentheses. -/
inductive ArithmeticTerm : List Lexeme → Expr → Prop where
  | number {u : List Lexeme} {tree : Expr} (h : Number u tree) : ArithmeticTerm u tree
  | var (name : String) : ArithmeticTerm [.identifier name] (.var name)
  | group {u : List Lexeme} {tree : Expr} (h : Arithmetic u tree) :
      ArithmeticTerm (.reserved .leftParen :: (u ++ [.reserved .rightParen])) tree

inductive ArithmeticOperand : List Lexeme → Expr → Prop where
  | call {u : List Lexeme} {tree : Expr} (h : Call u tree) : ArithmeticOperand u tree
  | term {u : List Lexeme} {tree : Expr} (h : ArithmeticTerm u tree) : ArithmeticOperand u tree

/-- Calls and terms joined by arithmetic operators. -/
inductive Arithmetic : List Lexeme → Expr → Prop where
  | chain {u : List Lexeme} {tree : Expr} (h : Chain ArithmeticOperand MathOperator u tree) :
      Arithmetic u tree

/-- Two arithmetic expressions with a comparison operator between them. -/
inductive Comparison : List Lexeme → Expr → Prop where
  | intro {u v w : List Lexeme} {left right : Expr} {op : CompareOp} (hleft : Arithmetic u left)
      (hop : ComparisonOperator v op) (hright : Arithmetic w right) :
      Comparison (u ++ (v ++ w)) (.compare op left right)

/-- An operand of the logical operators that is no call. -/
inductive LogicTerm : List Lexeme → Expr → Prop where
  | boolean {u : List Lexeme} {tree : Expr} (h : Boolean u tree) : LogicTerm u tree
  | comparison {u : List Lexeme} {tree : Expr} (h : Comparison u tree) : LogicTerm u tree
  | not {u : List Lexeme} {operand : Expr} (h : LogicTerm u operand) :
      LogicTerm (.reserved .logicalNot :: u) (.not operand)
  | var (name : String) : LogicTerm [.identifier name] (.var name)
  | group {u : List Lexeme} {tree : Expr} (h : Logic u tree) :
      LogicTerm (.reserved .leftParen :: (u ++ [.reserved .rightParen])) tree

inductive LogicOperand : List Lexeme → Expr → Prop where
  | call {u : List Lexeme} {tree : Expr} (h : Call u tree) : LogicOperand u tree
  | term {u : List Lexeme} {tree : Expr} (h : LogicTerm u tree) : LogicOperand u tree

/-- Calls and terms joined by logical operators. -/
inductive Logic : List Lexeme → Expr → Prop where
  | chain {u : List Lexeme} {tree : Expr} (h : Chain LogicOperand LogicOperator u tree) :
      Logic u tree

/-- Either a logical or an arithmetic expression. -/
inductive Expression : List Lexeme → Expr → Prop where
  | logic {u : List Lexeme} {tree : Expr} (h : Logic u tree) : Expression u tree
  | arithmetic {u : List Lexeme} {tree : Expr} (h : Arithmetic u tree) : Expression u tree

end

/-! ## Statements -/

inductive Semicolon : List Lexeme → (Stmt → Stmt → Stmt) → Prop where
  | intro : Semicolon [.reserved .semicolon] .seq

mutual

inductive Statement : List Lexeme → Stmt → Prop where
  | assign (name : String) {u : List Lexeme} {value : Expr} (hvalue : Expression u value) :
      Statement (.identifier name :: .reserved .assign :: u) (.assign name value)
  | ifThen {u v : List Lexeme} {condition : Expr} {body : Stmt} (hcondition : Logic u condition)
      (hbody : Block v body) :
      Statement (.reserved .ifWord :: (u ++ (v ++ [.reserved .endWord]))) (.ifThen condition body)
  | ifElse {u v w : List Lexeme} {condition : Expr} {body alternative : Stmt}
      (hcondition : Logic u condition) (hbody : Block v body)
      (halternative : Block w alternative) :
      Statement (.reserved .ifWord ::
          (u ++ (v ++ .reserved .elseWord :: (w ++ [.reserved .endWord]))))
        (.ifElse condition body alternative)
  | loop {u v : List Lexeme} {condition : Expr} {body : Stmt} (hcondition : Logic u condition)
      (hbody : Block v body) :
      Statement (.reserved .whileWord :: (u ++ (v ++ [.reserved .endWord]))) (.loop condition body)

/-- Statements joined by semicolons. -/
inductive Block : List Lexeme → Stmt → Prop where
  | chain {u : List Lexeme} {tree : Stmt} (h : Chain Statement Semicolon u tree) : Block u tree

end

/-! ## Programs -/

/-- The statements of a function, if there are any, perhaps with a semicolon behind them. -/
inductive Body : List Lexeme → Option Stmt → Prop where
  | none : Body [] none
  | noneSemicolon : Body [.reserved .semicolon] none
  | block {u : List Lexeme} {body : Stmt} (h : Block u body) : Body u (some body)
  | blockSemicolon {u : List Lexeme} {body : Stmt} (h : Block u body) :
      Body (u ++ [.reserved .semicolon]) (some body)

inductive Function : List Lexeme → FunctionDef → Prop where
  | intro (name : String) {u v w : List Lexeme} {params : List String} {body : Option Stmt}
      {result : Expr} (hparams : CommaList Identifier u params) (hbody : Body v body)
      (hresult : Expression w result) :
      Function (.reserved .funcWord :: .identifier name :: .reserved .leftParen ::
          (u ++ .reserved .rightParen :: .reserved .leftBrace ::
            (v ++ .reserved .returnWord :: (w ++ [.reserved .rightBrace]))))
        { name, params, body, result }

inductive Program : List Lexeme → WhileLang.Program → Prop where
  | intro {u : List Lexeme} {functions : List FunctionDef}
      (h : SeparatedBy .semicolon Function u functions) : Program u { functions }

end Phrase

end WhileLang
