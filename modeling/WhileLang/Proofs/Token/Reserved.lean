import Mathlib.Data.List.Basic
import WhileLang.Token.Scan

/-!
# Reserved words

How the reserved words are spelled, and what makes other lexemes of them.

Main definitions:

- Function {lit}`Reserved.goesOn`: the characters that make another lexeme of a word.

Main results:

- Theorem {lit}`Reserved.text_injective`: different words have different spellings.
- Theorem {lit}`Reserved.goesOn_of_prefix`: a word at the start of another one goes on.
-/

namespace WhileLang

/-- All reserved words. -/
def Reserved.all : List Reserved :=
  [.funcWord, .returnWord, .ifWord, .elseWord, .endWord, .whileWord, .trueWord, .falseWord, .assign,
    .leftParen, .rightParen, .leftBrace, .rightBrace, .semicolon, .comma, .greaterEquals,
    .greaterThan, .lessEquals, .lessThan, .doubleEquals, .notEquals, .logicalAnd, .logicalOr,
    .logicalNot, .plus, .minus]

theorem Reserved.mem_all (word : Reserved) : word ∈ all := by
  cases word <;> decide

/-- Different words are spelled differently. -/
theorem Reserved.text_injective {word other : Reserved} (h : word.text = other.text) :
    word = other := by
  have hchecked : ∀ word ∈ all, ∀ other ∈ all, word.text = other.text → word = other := by
    decide +kernel
  exact hchecked word word.mem_all other other.mem_all h

/-- Characters that would make another lexeme of a reserved word. -/
def Reserved.goesOn (word : Reserved) (c : Char) : Bool :=
  match word with
  | .funcWord => isIdentifierRest c
  | .returnWord => isIdentifierRest c
  | .ifWord => isIdentifierRest c
  | .elseWord => isIdentifierRest c
  | .endWord => isIdentifierRest c
  | .whileWord => isIdentifierRest c
  | .trueWord => isIdentifierRest c
  | .falseWord => isIdentifierRest c
  | .greaterThan => c = '='
  | .lessThan => c = '='
  | .logicalNot => c = '='
  | _ => false

/-- What a word starts with, and which characters go on with it. -/
theorem Reserved.text_toList (word : Reserved) :
    ∃ first rest, word.text.toList = first :: rest ∧ first.isDigit = false ∧ isBlank first = false ∧
      (isIdentifierStart first = true →
        (∀ c ∈ rest, isIdentifierRest c = true) ∧ ∀ c, word.goesOn c = isIdentifierRest c) := by
  cases word <;> exact ⟨_, _, rfl, by decide, by decide, by
    first
    | exact fun _ => ⟨List.all_eq_true.1 (by decide), fun _ => rfl⟩
    | exact fun h => absurd h (by decide)⟩

/-- A word that starts another one goes on with the next character of that. -/
theorem Reserved.goesOn_of_prefix {word other : Reserved} {c : Char}
    (h : word.text.toList ++ [c] <+: other.text.toList) : word.goesOn c = true := by
  have hchecked : ∀ word ∈ all, ∀ other ∈ all,
      word.text.toList.isPrefixOf other.text.toList = true →
        ((other.text.toList.drop word.text.toList.length).head?.all word.goesOn) = true := by
    decide +kernel
  obtain ⟨rest, hrest⟩ := h
  rw [List.append_assoc] at hrest
  have hall := hchecked word word.mem_all other other.mem_all
    (List.isPrefixOf_iff_prefix.2 ⟨_, hrest⟩)
  rw [← hrest, List.drop_left] at hall
  exact hall

end WhileLang
