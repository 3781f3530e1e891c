import WhileLang.ParseState

/-!
# Parser combinators

A parser maps a state to a value or a failure, and to a new state in either case.  A parser that
fails leaves the cursor where it failed; only the combinators that go on after a failure move it
back.

Main definitions:

- Type {lit}`Parser`.
- Functions {lit}`Parser.seq`, {lit}`Parser.skip`, {lit}`Parser.skipLeft`, {lit}`Parser.map`: one
  parser after another.
- Function {lit}`Parser.or`: of two alternatives the one that consumes more.
- Function {lit}`Parser.chainLeft`: items with separators between them, folded from the left.
- Functions {lit}`Parser.label`, {lit}`Parser.optional`, {lit}`Parser.separated` and
  {lit}`Parser.complete`.
- Functions {lit}`Parser.literal` and {lit}`Parser.tag`: the tests of single tokens.
-/

namespace WhileLang

/-- A parser over states that remember results of rules. -/
def Parser (ρ : Type) (Stored : ρ → Type) (α : Type) : Type :=
  ParseState ρ Stored → Except ParseError α × ParseState ρ Stored

namespace Parser

variable {ρ : Type} {Stored : ρ → Type} {α β : Type}

/-! ## Sequences -/

/-- Succeed without consuming anything. -/
def succeed (value : α) : Parser ρ Stored α := fun state =>
  (.ok value, state)

/-- Fail at the cursor; the failure is not recorded. -/
def fail (text : String) : Parser ρ Stored α := fun state =>
  (.error (state.errorHere text), state)

/-- Run a parser, then the one that its value selects. -/
def andThen (first : Parser ρ Stored α) (next : α → Parser ρ Stored β) : Parser ρ Stored β :=
  fun state =>
    match first state with
    | (.ok value, after) => next value after
    | (.error error, after) => (.error error, after)

/-- Transform the value of a parser. -/
def map (parser : Parser ρ Stored α) (f : α → β) : Parser ρ Stored β :=
  parser.andThen fun value => succeed (f value)

/-- Run two parsers in a row and keep both values. -/
def seq (first : Parser ρ Stored α) (second : Parser ρ Stored β) : Parser ρ Stored (α × β) :=
  first.andThen fun a => second.map fun b => (a, b)

/-- Run two parsers in a row and keep the first value. -/
def skip (first : Parser ρ Stored α) (second : Parser ρ Stored β) : Parser ρ Stored α :=
  first.andThen fun a => second.map fun _ => a

/-- Run two parsers in a row and keep the second value. -/
def skipLeft (first : Parser ρ Stored α) (second : Parser ρ Stored β) : Parser ρ Stored β :=
  first.andThen fun _ => second

/-- Build a parser when it is first needed. -/
def defer (parser : Unit → Parser ρ Stored α) : Parser ρ Stored α := fun state =>
  parser () state

/-! ## Choice and repetition -/

/--
Run both alternatives from the same place and keep the one that consumed more tokens, the left one
if they consumed as many.  If both fail, the cursor is back at the start, and the failure at the
greater index is reported, the left one if they failed at the same index.
-/
def or (left right : Parser ρ Stored α) : Parser ρ Stored α := fun state =>
  let (leftResult, afterLeft) := left state
  let (rightResult, afterRight) := right (afterLeft.restore state.index)
  match leftResult, rightResult with
  | .ok a, .ok b =>
    if afterLeft.index < afterRight.index then (.ok b, afterRight)
    else (.ok a, afterRight.restore afterLeft.index)
  | .ok a, .error _ => (.ok a, afterRight.restore afterLeft.index)
  | .error _, .ok b => (.ok b, afterRight)
  | .error e, .error f =>
    (.error (if e.index < f.index then f else e), afterRight.restore state.index)

/-- The rounds of a chain after its first item, at most as many as given. -/
def chainFrom (item : Parser ρ Stored α) (separator : Parser ρ Stored (α → α → α)) :
    Nat → α → Parser ρ Stored α
  | 0, folded => succeed folded
  | rounds + 1, folded => fun state =>
    match separator state with
    | (.error _, after) => (.ok folded, after.restore state.index)
    | (.ok combine, after) =>
      match item after with
      | (.error _, after) => (.ok folded, after.restore state.index)
      | (.ok next, after) => chainFrom item separator rounds (combine folded next) after

/--
One item, then separators and items in turn, folded from the left with what the separators yield.
A round that fails ends the chain before its separator.  Rounds that succeed consume tokens, so
there are no more of them than tokens left.
-/
def chainLeft (item : Parser ρ Stored α) (separator : Parser ρ Stored (α → α → α)) :
    Parser ρ Stored α :=
  item.andThen fun first state =>
    chainFrom item separator (state.tokens.size - state.index + 1) first state

/-- A parser that yields nothing, and moves the cursor back, where the given one fails. -/
def optional (parser : Parser ρ Stored α) : Parser ρ Stored (Option α) := fun state =>
  match parser state with
  | (.ok value, after) => (.ok (some value), after)
  | (.error _, after) => (.ok none, after.restore state.index)

/-! ## Failures -/

/-- Give a failure to the record and report it. -/
def reject (error : ParseError) : Parser ρ Stored α := fun state =>
  (.error error, state.record error)

/-- Name what a parser expects where it fails without having consumed anything. -/
def label (parser : Parser ρ Stored α) (name : String) : Parser ρ Stored α := fun state =>
  match parser state with
  | (.ok value, after) => (.ok value, after)
  | (.error error, after) =>
    if error.index = state.index then reject { error with expected := [name] } after
    else (.error error, after)

/-- Succeed only if nothing is left after a parser. -/
def complete (parser : Parser ρ Stored α) : Parser ρ Stored α :=
  parser.andThen fun value state =>
    if state.hasNext then
      reject { state.errorHere "unconsumed input" with expected := ["end of input"] } state
    else (.ok value, state)

/-! ## Single tokens -/

/-- Consume a token whose lexeme passes a test, and yield its text. -/
def satisfy (accepts : Lexeme → Bool) (expected : String) : Parser ρ Stored String := fun state =>
  match state.peek?.filter (accepts ·.lexeme) with
  | some token => (.ok token.lexeme.text, state.advance)
  | none => reject { state.errorHere "unexpected token" with expected := [expected] } state

/-- What a failed test for a class of tokens expected. -/
def describeTag : Tag → String
  | .symbol => "syntax"
  | .number => "integer"
  | .boolean => "boolean"
  | .variable => "identifier"

/-- Consume a token of a class, and yield its text. -/
def tag (wanted : Tag) : Parser ρ Stored String :=
  satisfy (·.tag = wanted) (describeTag wanted)

/-- Consume a symbol of the given spelling. -/
def literal (text : String) : Parser ρ Stored String :=
  satisfy (fun lexeme => lexeme.tag = .symbol && lexeme.text = text) ("'" ++ text ++ "'")

/-- Items with the given symbol between them. -/
def separated (item : Parser ρ Stored α) (separator : String) : Parser ρ Stored (List α) :=
  (item.map fun value => [value]).chainLeft ((literal separator).map fun _ => (· ++ ·))

/-! ## Marks -/

/-- Leave a mark whenever a parser is run. -/
def marked (parser : Parser ρ Stored α) (mark : ρ) : Parser ρ Stored α := fun state =>
  parser (state.mark mark)

/-- Leave a mark when a parser is run for the first time. -/
def markedOnce [DecidableEq ρ] (parser : Parser ρ Stored α) (mark : ρ) : Parser ρ Stored α :=
  fun state =>
    if state.marks.any (·.1 = mark) then parser state else parser (state.mark mark)

/-! ## Whole inputs -/

/--
Run a parser on a list of tokens.  The failure reported is the furthest one recorded, together with
the text left over from there.
-/
def run (parser : Parser ρ Stored α) (tokens : List Token) : Except ParseError α :=
  match parser (.start tokens) with
  | (.ok value, _) => .ok value
  | (.error error, state) =>
    let furthest := state.furthest.getD error
    .error { furthest with remainder := some (state.restore furthest.index).remainder }

end Parser

end WhileLang
