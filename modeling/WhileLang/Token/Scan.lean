import WhileLang.Text.Decimal
import WhileLang.Text.Lines
import WhileLang.Token

/-!
# Scanning a source

A source is read from the left.  Blanks are skipped; anywhere else the longest lexeme that matches
is taken, and of two rules that match equally far the one listed first.  A pass that comes to a
place where no lexeme matches answers a text only.  The place is read back from this text, and what
stands before it in the source is passed over once more for its tokens.

Main definitions:

- Function {lit}`Lexeme.longest?`: the lexeme at the start of a text.
- Function {lit}`Token.lex`: one pass over a source.
- Type {lit}`ScanError`: where no lexeme matches, and what was read before.
- Function {lit}`Token.scan`: the tokens of a source, or the place where they end.
-/

namespace WhileLang

/-! ## Rules -/

/-- Letters that may start an identifier. -/
def isIdentifierStart (c : Char) : Bool :=
  c.isAlpha

/-- Letters that may continue an identifier. -/
def isIdentifierRest (c : Char) : Bool :=
  c.isAlphanum || c = '_'

/-- The characters skipped between lexemes. -/
def isBlank (c : Char) : Bool :=
  c = ' ' || c = '\t' || c = '\n' || c = '\x0c' || c = '\r'

/-- The rules in their order of precedence: keywords before identifiers. -/
def Kind.rules : List Kind :=
  [.reserved .funcWord, .reserved .returnWord, .reserved .ifWord, .reserved .elseWord,
    .reserved .endWord, .reserved .whileWord, .reserved .trueWord, .reserved .falseWord,
    .identifier, .integer,
    .reserved .assign, .reserved .leftParen, .reserved .rightParen, .reserved .leftBrace,
    .reserved .rightBrace, .reserved .semicolon, .reserved .comma, .reserved .greaterEquals,
    .reserved .greaterThan, .reserved .lessEquals, .reserved .lessThan, .reserved .doubleEquals,
    .reserved .notEquals, .reserved .logicalAnd, .reserved .logicalOr, .reserved .logicalNot,
    .reserved .plus, .reserved .minus]

/-- Number of characters of the longest match of a rule at the start of a text; zero if none. -/
def Kind.matchLength (input : List Char) : Kind → Nat
  | .reserved word => if word.text.toList.isPrefixOf input then word.text.length else 0
  | .identifier =>
    match input with
    | c :: rest => if isIdentifierStart c then (rest.takeWhile isIdentifierRest).length + 1 else 0
    | [] => 0
  | .integer => (input.takeWhile Char.isDigit).length

/-- The lexeme of a kind that is spelled as given. -/
def Kind.lexeme (spelling : List Char) : Kind → Lexeme
  | .reserved word => .reserved word
  | .identifier => .identifier (String.ofList spelling)
  | .integer => .integer (String.ofList spelling)

/-- The better of two matches: the longer one, and the first if they are equally long. -/
def betterMatch (best candidate : Kind × Nat) : Kind × Nat :=
  if best.2 < candidate.2 then candidate else best

/-- The rule with the longest match at the start of a text, with the length of that match. -/
def Kind.longestMatch (input : List Char) : Kind × Nat :=
  Kind.rules.foldl (fun best rule => betterMatch best (rule, rule.matchLength input))
    (.identifier, 0)

/-- The lexeme at the start of a text, and its length, if any rule matches there. -/
def Lexeme.longest? (input : List Char) : Option (Lexeme × Nat) :=
  match Kind.longestMatch input with
  | (_, 0) => none
  | (kind, length + 1) => some (kind.lexeme (input.take (length + 1)), length + 1)

/-! ## One pass -/

/-- The place after a blank. -/
def Position.afterBlank (position : Position) (c : Char) : Position :=
  if c = '\n' then ⟨position.line + 1, 0⟩ else ⟨position.line, position.column + 1⟩

/-- The place after a lexeme of a given length. -/
def Position.advance (position : Position) (length : Nat) : Position :=
  ⟨position.line, position.column + length⟩

/-- A lexeme that matches is not empty. -/
theorem Lexeme.longest?_pos {input : List Char} {lexeme : Lexeme} {length : Nat}
    (h : Lexeme.longest? input = some (lexeme, length)) : 0 < length := by
  unfold Lexeme.longest? at h
  split at h
  · exact absurd h (by simp)
  · injection h with h
    injection h with _ h
    omega

namespace Token

/-- What a pass over a source answers when it stops after some bytes. -/
def stopReport (source : String) (offset : Nat) (remainder : String) : String :=
  "Failed to lex '" ++ source ++ "' at position " ++ toString offset ++ "; remaining '"
    ++ remainder ++ "'"

/--
Scan the rest of a source.  Blanks and lexemes are ASCII, so the characters read so far are as many
as their bytes; {lit}`found` holds the tokens before, the latest first.
-/
def scanFrom (source : String) (offset : Nat) (position : Position) (found : List Token)
    (input : List Char) : Except String (List Token) :=
  match input with
  | [] => .ok found.reverse
  | c :: rest =>
    if isBlank c then
      scanFrom source (offset + 1) (position.afterBlank c) found rest
    else
      match _matched : Lexeme.longest? (c :: rest) with
      | none => .error (stopReport source offset (String.ofList (c :: rest)))
      | some (lexeme, length) =>
        let next := position.advance length
        scanFrom source (offset + length) next (⟨lexeme, ⟨position, next, source⟩⟩ :: found)
          ((c :: rest).drop length)
termination_by input.length
decreasing_by
  · simp
  · have := Lexeme.longest?_pos _matched
    simp only [List.length_drop, List.length_cons]
    omega

/-- The tokens of a source, or a text that tells where they end. -/
def lex (source : String) : Except String (List Token) :=
  scanFrom source 0 .start [] source.toList

end Token

/-! ## Failures -/

/-- A place where no lexeme matches. -/
structure ScanError where
  /-- Bytes before the place. -/
  offset : Nat
  /-- The source from the place on. -/
  remainder : String
  /-- The tokens before the place. -/
  tokens : List Token
deriving DecidableEq

/-- The wording of a scan error quotes the first line that is left. -/
def ScanError.message (error : ScanError) : String :=
  "no token matches at offset " ++ toString error.offset ++ " (after "
    ++ toString error.tokens.length ++ " token(s)): " ++ Text.firstLine error.remainder

namespace Token

/-- What follows a lead in a text that starts with it. -/
def afterLead? (lead text : List Char) : Option (List Char) :=
  if lead.isPrefixOf text then some (text.drop lead.length) else none

/--
The offset a report tells, if the report has the known shape and the offset is the place of a
character.  A number that no machine word holds is behind the end of every source, so it is enough
to read numbers up to the size of this one.
-/
def stopOffset? (source report : String) : Option Nat := do
  let quoted ← afterLead? "Failed to lex '".toList report.toList
  let behind ← afterLead? source.toList quoted
  let numbered ← afterLead? "' at position ".toList behind
  let digits := String.ofList (numbered.takeWhile (· ≠ ';'))
  let offset ← (Decimal.readUnsigned source.utf8ByteSize digits).toOption
  if (Text.splitAtByte? offset source.toList).isSome then some offset else none

/--
The failure that a report is about.  A report that cannot be read counts as one about the start of
the source.
-/
def failure (source report : String) : ScanError :=
  let offset := (stopOffset? source report).getD 0
  let (before, after) := (Text.splitAtByte? offset source.toList).getD ([], source.toList)
  ⟨offset, String.ofList after, (lex (String.ofList before)).toOption.getD []⟩

/-- The tokens of a source. -/
def scan (source : String) : Except ScanError (List Token) :=
  (lex source).mapError (failure source)

end Token

end WhileLang
