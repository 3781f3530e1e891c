import WhileLang.Proofs.Grammar.Shapes
import WhileLang.Proofs.Parser.Exactness

/-!
# Expressions as conditions

The grammar wants a logical expression for a condition.  Variables, calls and groups of these are
logical as well as arithmetic, so what is refused are just the expressions that are arithmetic and
nothing else: numbers, sums and differences.  Nothing separates a condition from the block behind
it, but no expression goes on with the first lexeme of a block, so the two are told apart.

Main definitions:

- Function {lit}`Expr.isNumeric`: what can only be arithmetic.

Main results:

- Theorem {lit}`Phrase.Expression.logic_iff`: which expressions are logical.
- Theorem {lit}`Phrase.Expression.logic_of_block`: a block starts with the whole of a condition.
- Theorem {lit}`Stmt.parse_condition_iff`: which expressions may be conditions.
-/

namespace WhileLang

/-- Whether an expression is a number, a sum or a difference, and so arithmetic only. -/
def Expr.isNumeric : Expr → Bool
  | .literal (.int _) => true
  | .math .. => true
  | _ => false

namespace Phrase

/-! ## Arithmetic that is logical -/

/-- A chain of arithmetic operators is its first operand, or a sum or a difference. -/
theorem chainFrom_mathOperator {items : Language Expr} {folded result : Expr} {u : List Lexeme}
    (h : ChainFrom items MathOperator folded u result) :
    u = [] ∧ result = folded ∨ result.isNumeric = true := by
  induction h with
  | stop folded => exact .inl ⟨rfl, rfl⟩
  | round hseparator _ _ ih =>
    rcases ih with ⟨-, rfl⟩ | hnumeric
    · cases hseparator <;> exact .inr rfl
    · exact .inr hnumeric

/-- Arithmetic that is no number, sum or difference is logical. -/
theorem Arithmetic.logic {u : List Lexeme} {tree : Expr} (h : Arithmetic u tree)
    (hnumeric : tree.isNumeric = false) : Logic u tree := by
  induction hlength : u.length using Nat.strong_induction_on generalizing u tree with
  | h length ih =>
    obtain ⟨⟨hfirst, hrest⟩⟩ := h
    rcases chainFrom_mathOperator hrest with ⟨rfl, rfl⟩ | hsum
    · rw [List.append_nil] at hlength ⊢
      refine .chain (Chain.single ?_)
      cases hfirst with
      | call hcall => exact .call hcall
      | term hterm =>
        refine .term ?_
        cases hterm with
        | number hnumber => cases hnumber <;> cases hnumeric
        | var name => exact .var name
        | group hinner =>
          refine .group (ih _ ?_ hinner hnumeric rfl)
          simp only [List.length_cons, List.length_append] at hlength
          omega
    · rw [hnumeric] at hsum
      cases hsum

/-- An expression is logical exactly if it is no number, sum or difference. -/
theorem Expression.logic_iff {u : List Lexeme} {tree : Expr} (h : Expression u tree) :
    Logic u tree ↔ tree.isNumeric = false := by
  constructor
  · intro hlogic
    have hshape := (shapes_logic hlogic).shape
    unfold Expr.isNumeric
    split
    · cases hshape
    · cases hshape
    · rfl
  · intro hnumeric
    cases h with
    | logic hlogic => exact hlogic
    | arithmetic harithmetic => exact harithmetic.logic hnumeric

/-! ## The place of a condition -/

variable {word : Reserved} {lexemes u v w : List Lexeme} {tree : Expr} {body stmt : Stmt}

/-- A block that starts with a reserved word has a condition behind it. -/
theorem Block.exists_condition (h : Block (.reserved word :: lexemes) stmt) :
    ∃ u rest condition, lexemes = u ++ rest ∧ Logic u condition
      ∧ StopsBefore Lexeme.continuesLogic rest := by
  obtain ⟨hchain⟩ := h
  generalize hwhole : Lexeme.reserved word :: lexemes = whole at hchain
  obtain ⟨hfirst, -⟩ := hchain
  cases hfirst with
  | assign name hvalue => cases hwhole
  | ifThen hcondition hbody | ifElse hcondition hbody _ | loop hcondition hbody =>
    injection hwhole with _ hlexemes
    simp only [List.append_eq, List.append_assoc] at hlexemes
    exact ⟨_, _, _, hlexemes, hcondition, stopsBefore_block hbody⟩

/-- An expression between such a word and a block is all of the condition. -/
theorem Expression.logic_of_block (hu : Expression u tree) (hv : Block v body)
    (h : Block (.reserved word :: (u ++ (v ++ w))) stmt) : Logic u tree := by
  obtain ⟨u', rest, condition, hsame, hcondition, hrest⟩ := h.exists_condition
  -- Neither of the two expressions at the start is longer than the other.
  obtain ⟨hle, htree⟩ := coherent_expression u u' (v ++ w) rest tree condition hu
    (.logic hcondition) hsame (stopsBefore_block hv)
  obtain ⟨hge, -⟩ := coherent_expression u' u rest (v ++ w) condition tree (.logic hcondition) hu
    hsame.symm hrest
  obtain ⟨rfl, -⟩ := List.append_inj hsame (Nat.le_antisymm hge hle)
  rw [htree rfl]
  exact hcondition

/-- A word with an expression and a block is a statement exactly if the expression is logical. -/
theorem Block.conditioned_iff {make : Expr → Stmt → Stmt}
    (hmake : ∀ {u v : List Lexeme} {condition : Expr} {body : Stmt}, Logic u condition →
      Block v body →
        Statement (.reserved word :: (u ++ (v ++ [.reserved .endWord]))) (make condition body))
    (hu : Expression u tree) (hv : Block v body) :
    Block (.reserved word :: (u ++ (v ++ [.reserved .endWord]))) stmt ↔
      tree.isNumeric = false ∧ stmt = make tree body := by
  have hblock (hlogic : Logic u tree) :
      Block (.reserved word :: (u ++ (v ++ [.reserved .endWord]))) (make tree body) :=
    .chain (Chain.single (hmake hlogic hv))
  have hexact : ParsesExactly Stmt.parse Block := .of_accepts fun _ _ => Stmt.parse_eq_ok
  constructor
  · intro h
    have hlogic := hu.logic_of_block hv h
    exact ⟨hu.logic_iff.1 hlogic, hexact.unambiguous h (hblock hlogic)⟩
  · rintro ⟨hnumeric, rfl⟩
    exact hblock (hu.logic_iff.2 hnumeric)

end Phrase

/-! ## Conditions -/

namespace Stmt

/-- The tokens of a statement: a word, a condition, and a block with its end. -/
def conditionedTokens (word : Reserved) (first last : Span) (condition body : List Token) :
    List Token :=
  ⟨.reserved word, first⟩ :: (condition ++ (body ++ [⟨.reserved .endWord, last⟩]))

theorem map_lexeme_conditionedTokens (word : Reserved) (first last : Span)
    (condition body : List Token) :
    (conditionedTokens word first last condition body).map (·.lexeme) = .reserved word ::
      (condition.map (·.lexeme) ++ (body.map (·.lexeme) ++ [.reserved .endWord])) := by
  simp [conditionedTokens]

/--
An expression in the place of a condition, with a block behind it, is read as the condition exactly
if it is no number, sum or difference.  With one of these, no statement is read at all.
-/
theorem parse_condition_iff {condition body : List Token} {tree : Expr} {stmt : Stmt}
    (hcondition : Expr.parse condition = .ok tree) (hbody : Stmt.parse body = .ok stmt)
    (first last : Span) (result : Stmt) :
    (Stmt.parse (conditionedTokens .ifWord first last condition body) = .ok result ↔
      tree.isNumeric = false ∧ result = .ifThen tree stmt) ∧
    (Stmt.parse (conditionedTokens .whileWord first last condition body) = .ok result ↔
      tree.isNumeric = false ∧ result = .loop tree stmt) := by
  have hu := Expr.parse_eq_ok.1 hcondition
  have hv := Stmt.parse_eq_ok.1 hbody
  simp only [Stmt.parse_eq_ok, map_lexeme_conditionedTokens]
  exact ⟨Phrase.Block.conditioned_iff .ifThen hu hv, Phrase.Block.conditioned_iff .loop hu hv⟩

/-- Lexemes as tokens that stand nowhere. -/
def unplaced (lexemes : List Lexeme) : List Token :=
  lexemes.map fun lexeme => ⟨lexeme, ⟨.start, .start, ""⟩⟩

/-- A variable in parentheses, which is arithmetic as well as logical, may be a condition. -/
theorem parse_condition_iff_grouped :
    let condition := unplaced
      [.reserved .leftParen, .identifier "x", .reserved .rightParen]
    let body := unplaced [.identifier "y", .reserved .assign, .integer "1"]
    let place : Span := ⟨.start, .start, ""⟩
    Expr.parse condition = .ok (.var "x") ∧ Stmt.parse body = .ok (.assign "y" (.int 1)) ∧
      Stmt.parse (conditionedTokens .ifWord place place condition body)
        = .ok (.ifThen (.var "x") (.assign "y" (.int 1))) ∧
      Stmt.parse (conditionedTokens .whileWord place place condition body)
        = .ok (.loop (.var "x") (.assign "y" (.int 1))) := by
  intro condition body place
  have hcondition : Expr.parse condition = .ok (.var "x") := by decide +kernel
  have hbody : Stmt.parse body = .ok (.assign "y" (.int 1)) := by decide +kernel
  exact ⟨hcondition, hbody, (parse_condition_iff hcondition hbody place place _).1.2 ⟨rfl, rfl⟩,
    (parse_condition_iff hcondition hbody place place _).2.2 ⟨rfl, rfl⟩⟩

/-- A number is an expression, but no condition. -/
theorem parse_condition_number :
    let condition := unplaced [.integer "1"]
    let body := unplaced [.identifier "x", .reserved .assign, .integer "2"]
    let place : Span := ⟨.start, .start, ""⟩
    Expr.parse condition = .ok (.int 1) ∧ Stmt.parse body = .ok (.assign "x" (.int 2)) ∧
      Stmt.parse (conditionedTokens .ifWord place place condition body)
        ≠ .ok (.ifThen (.int 1) (.assign "x" (.int 2))) ∧
      Stmt.parse (conditionedTokens .whileWord place place condition body)
        ≠ .ok (.loop (.int 1) (.assign "x" (.int 2))) := by
  decide +kernel

end Stmt

end WhileLang
