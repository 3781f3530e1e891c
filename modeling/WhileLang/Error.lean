import WhileLang.ParseError
import WhileLang.SemanticError
import WhileLang.Token.Scan

/-!
# Errors

Everything that can go wrong between reading a source and the result asked for.

Main definitions:

- Type {lit}`Error`.
- Functions {lit}`Error.message` and {lit}`Error.cause`: the report, and the report of what is
  behind it.
-/

namespace WhileLang

/-- A failure of any stage. -/
inductive Error where
  /-- A file could not be read. -/
  | unreadable (path cause : String)
  | scan (error : ScanError)
  | parse (error : ParseError)
  | semantic (error : SemanticError)
deriving DecidableEq

namespace Error

/-- The report of an error. -/
def message : Error → String
  | .unreadable path cause => "could not read " ++ path ++ ": " ++ cause
  | .scan error => error.message
  | .parse error => error.message
  | .semantic error => error.message

/-- The report of what is behind an error: the error of the stage, or of the file system. -/
def cause : Error → String
  | .unreadable _ cause => cause
  | .scan error => error.message
  | .parse error => error.message
  | .semantic error => error.message

end Error

end WhileLang
