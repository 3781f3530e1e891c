import WhileLang.Text.Lines
import WhileLang.Token

/-!
# Parse errors

What a parser reports when it fails, and how the report is shown over the source.

Main definitions:

- Type {lit}`ParseError`: a text, the expectations that were not met, and the place.
- Function {lit}`ParseError.message`: the report, under an excerpt of the source if the place is
  known.
-/

namespace WhileLang

/-- A failure of a parser. -/
structure ParseError where
  /-- What went wrong. -/
  text : String
  /-- What would have been accepted, in the order it was tried. -/
  expected : List String := []
  /-- What stands there instead. -/
  found : Option String := none
  /-- Where it stands. -/
  position : Option Span := none
  /-- The index of the token the failure was detected at. -/
  index : Nat := 0
  /-- The text of the tokens left over from there. -/
  remainder : Option String := none
deriving DecidableEq, Inhabited

/-! ## Excerpts -/

namespace Span

/-- A margin as wide as the number of the last line, counted from zero. -/
private def margin (span : Span) : String :=
  String.ofList (List.replicate (toString span.last.line).length ' ') ++ " |"

/-- The line before the span, empty if the span starts on the first line. -/
private def lineBefore (span : Span) : String :=
  match span.first.line with
  | 0 => ""
  | line + 1 => (Text.lines span.source)[line]?.getD ""

/-- The line a span starts on, with the line before it and a caret under the last character. -/
def excerpt (span : Span) (caption : String) : String :=
  let line := (Text.lines span.source)[span.first.line]?.getD ""
  let padding := String.ofList (List.replicate (span.last.column - 1) ' ')
  span.margin ++ "\n"
    ++ span.margin ++ span.lineBefore ++ " \n"
    ++ toString (span.first.line + 1) ++ " |" ++ line ++ "\n"
    ++ toString (span.last.line + 2) ++ " |" ++ padding ++ "^--- " ++ caption ++ "\n"
    ++ span.margin

end Span

/-! ## Messages -/

namespace ParseError

/-- The text with the expectations and what was found. -/
def summary (error : ParseError) : String :=
  error.text
    ++ (if error.expected.isEmpty then "" else ": expected " ++ " or ".intercalate error.expected)
    ++ error.found.elim "" (", found " ++ ·)

/-- The whole report: a known place in a source that is not empty is shown as an excerpt. -/
def message (error : ParseError) : String :=
  let report :=
    match error.position with
    | some span =>
      if span.source.isEmpty then "Parse error: " ++ error.summary else span.excerpt error.summary
    | none => "Parse error: " ++ error.summary
  match error.remainder with
  | some rest => if rest.isEmpty then report else report ++ "\nremaining input: " ++ rest
  | none => report

end ParseError

end WhileLang
