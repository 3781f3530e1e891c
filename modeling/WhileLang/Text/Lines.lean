/-!
# Lines and places of a text

A line ends with a line feed, before which one carriage return belongs to the line ending as well.
A carriage return anywhere else is an ordinary character, and a text that ends with a line feed has
no empty line after it.  A place is given by the number of bytes before it.

Main definitions:

- Function {lit}`Text.lines`: the lines of a text without their endings.
- Function {lit}`Text.firstLine`: the first of them, empty if there is none.
- Function {lit}`Text.splitAtByte?`: a text cut in two at a place.
-/

namespace WhileLang
namespace Text

/-- Put a character in front of the first line. -/
private def consToFirstLine (c : Char) : List (List Char) → List (List Char)
  | [] => [[c]]
  | line :: rest => (c :: line) :: rest

/-- The lines of a list of characters, without their endings. -/
def linesOfChars : List Char → List (List Char)
  | [] => []
  | '\n' :: rest => [] :: linesOfChars rest
  | '\r' :: '\n' :: rest => [] :: linesOfChars rest
  | c :: rest => consToFirstLine c (linesOfChars rest)

/-- The lines of a text, without their endings. -/
def lines (text : String) : List String :=
  (linesOfChars text.toList).map String.ofList

/-- The first line of a text, empty if the text has no line. -/
def firstLine (text : String) : String :=
  (lines text).headD ""

/-- A carriage return and a line feed end one line together. -/
example : lines "a\r\nb\r\r\n\nc" = ["a", "b\r", "", "c"] := by decide

/-- A final line ending opens no further line. -/
example : lines "a\n" = ["a"] ∧ lines "\n" = [""] ∧ lines "" = [] := by decide

/-- Cut a text after a number of bytes.  There is no cut within a character. -/
def splitAtByte? : Nat → List Char → Option (List Char × List Char)
  | 0, text => some ([], text)
  | _ + 1, [] => none
  | offset + 1, c :: rest =>
    if c.utf8Size ≤ offset + 1 then
      (splitAtByte? (offset + 1 - c.utf8Size) rest).map fun (before, after) => (c :: before, after)
    else
      none

/-- The second character takes two bytes. -/
example : splitAtByte? 1 ['a', 'ä'] = some (['a'], ['ä']) ∧ splitAtByte? 2 ['a', 'ä'] = none := by
  decide

end Text
end WhileLang
