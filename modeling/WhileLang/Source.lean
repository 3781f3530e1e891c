import WhileLang.Error
import WhileLang.Grammar
import WhileLang.Running.Execution
import WhileLang.Term.Inference

/-!
# Sources

From the text of a program to its tree, its run and its types.

Main definitions:

- Functions {lit}`Program.ofSource`, {lit}`Stmt.ofSource` and {lit}`Expr.ofSource`.
- Functions {lit}`Program.runSource?`, {lit}`Stmt.runSource?` and
  {lit}`Program.inferTypesOfSource`.
- Function {lit}`decodeSource`: the text of a file, which has to be valid UTF-8.
-/

namespace WhileLang

/-! ## Trees -/

/-- Scan a source, and parse its tokens. -/
def parseSource {α : Type} (parse : List Token → Except ParseError α) (source : String) :
    Except Error α :=
  match Token.scan source with
  | .error error => .error (.scan error)
  | .ok tokens => (parse tokens).mapError .parse

/-- The program that a source spells. -/
def Program.ofSource (source : String) : Except Error Program :=
  parseSource Program.parse source

/-- The block that a source spells. -/
def Stmt.ofSource (source : String) : Except Error Stmt :=
  parseSource Stmt.parse source

/-- The expression that a source spells. -/
def Expr.ofSource (source : String) : Except Error Expr :=
  parseSource Expr.parse source

/-! ## Runs and types -/

/-- Run the program that a source spells. -/
def Program.runSource? (source : String) (maxDepth fuel : Nat) :
    Option (Except Error Execution) :=
  match Program.ofSource source with
  | .error error => some (.error error)
  | .ok program => (program.run? maxDepth fuel).map (·.mapError .semantic)

/-- Run the block that a source spells. -/
def Stmt.runSource? (source : String) (maxDepth fuel : Nat) : Option (Except Error Execution) :=
  match Stmt.ofSource source with
  | .error error => some (.error error)
  | .ok script => (script.run? maxDepth fuel).map (·.mapError .semantic)

/-- Infer the types of the program that a source spells. -/
def Program.inferTypesOfSource (source : String) : Except Error ProgramTypes :=
  match Program.ofSource source with
  | .error error => .error error
  | .ok program => program.inferTypes.mapError .semantic

/-! ## Files -/

/-- The text of a file that was read, or could not be read for the given cause. -/
def decodeSource (path : String) (content : Except String ByteArray) : Except Error String :=
  match content with
  | .error cause => .error (.unreadable path cause)
  | .ok bytes =>
    match String.fromUTF8? bytes with
    | some source => .ok source
    | none => .error (.unreadable path "stream did not contain valid UTF-8")

end WhileLang
