import WhileLang.Parser

/-!
# Rules

The nonterminals of a grammar.  A grammar gives every rule a body that may use all rules; running a
rule unfolds bodies to a given depth.  A rule stores its result by the index it was started at, and
is not run there again.

Main definitions:

- Type {lit}`Definition`: a rule may have a body, be declared only, or be gone.
- Function {lit}`Parser.rule`: run a rule of a grammar, storing results or not.
-/

namespace WhileLang

/-- What a rule stands for. -/
inductive Definition (α : Type) where
  | body (parser : α)
  /-- Declared, but without a body. -/
  | missing
  /-- No longer part of the grammar. -/
  | gone

/-- Whether results of rules are stored and used again. -/
inductive Sharing where
  | stored
  | rerun
deriving DecidableEq

/-- The failure of a rule that has no body. -/
def ParseError.missingRule (name : String) : ParseError :=
  { text := "rule '" ++ name ++ "' used before it was defined" }

/-- The failure of a rule that is gone. -/
def ParseError.goneRule (name : String) : ParseError :=
  { text := "rule '" ++ name ++ "' no longer exists" }

namespace Parser

variable {ρ : Type} {Result : ρ → Type}

/-- Parsers of a grammar store the result of a rule whether it is a value or a failure. -/
abbrev OfGrammar (ρ : Type) (Result : ρ → Type) (α : Type) : Type :=
  Parser ρ (fun rule => Except ParseError (Result rule)) α

/-- Run the body of a rule, marking the start, and store the result. -/
def runBody [DecidableEq ρ] (sharing : Sharing) (rule : ρ)
    (body : OfGrammar ρ Result (Result rule)) : OfGrammar ρ Result (Result rule) := fun state =>
  let (result, after) := body (state.mark rule)
  match sharing with
  | .stored => (result, after.store rule state.index result)
  | .rerun => (result, after)

/-- The result of a rule at the cursor, if it was stored there and may be used again. -/
def recalled? (sharing : Sharing) (rule : ρ)
    (state : ParseState ρ fun rule => Except ParseError (Result rule)) :
    Option (Except ParseError (Result rule) × Nat) :=
  match sharing with
  | .stored => state.«recall?» rule
  | .rerun => none

/--
Run a rule of a grammar whose rules are unfolded to the given depth.  A result stored at the cursor
is used again, together with the place where the cursor was left.
-/
def rule [DecidableEq ρ] (sharing : Sharing) (name : ρ → String)
    (grammar : ((rule : ρ) → OfGrammar ρ Result (Result rule)) →
      (rule : ρ) → Definition (OfGrammar ρ Result (Result rule))) :
    Nat → (rule : ρ) → OfGrammar ρ Result (Result rule)
  | 0, _ => fail "nesting too deep"
  | depth + 1, wanted => fun state =>
    match recalled? sharing wanted state with
    | some (result, stop) => (result, state.restore stop)
    | none =>
      match grammar (rule sharing name grammar depth) wanted with
      | .gone => (.error (.goneRule (name wanted)), state)
      | .missing =>
        runBody sharing wanted (fun state => (.error (.missingRule (name wanted)), state)) state
      | .body parser => runBody sharing wanted parser state

end Parser

end WhileLang
