import WhileLang.CommandLine
import WhileLang.FileTree

/-!
# The program

The outer layer of the command line: it reads the file that a call names, and writes the answer.
-/

namespace WhileLang

/-- More steps than any run can take in practice. -/
def unlimitedFuel : Nat :=
  1 <<< 62

/-- The content of a file, or why it cannot be read. -/
def readContent (path : String) : IO (Except String ByteArray) := do
  try
    return .ok (← IO.FS.readBinFile path)
  catch
    | .noFileOrDirectory _ _ _ => return .error FileTree.Fault.missing.message
    | .inappropriateType _ 21 _ => return .error FileTree.Fault.isFolder.message
    | .inappropriateType _ _ _ => return .error FileTree.Fault.notFolder.message
    | error => return .error (toString error)

/-- Write an answer, and exit with its code. -/
def deliver (response : Response) : IO UInt32 := do
  IO.print response.output
  IO.eprint response.errors
  return response.code.toUInt32

end WhileLang

open WhileLang in
/-- Answer a call of the program. -/
def main (args : List String) : IO UInt32 := do
  match Request.ofArgs? args with
  | none =>
    IO.eprintln "usage: [-l LEVEL] run [--max-call-depth N] | exec | types | fmt FILE"
    deliver .rejection
  | some request =>
    match request.respond? (← readContent request.path) unlimitedFuel with
    | none => return 1
    | some response => deliver response
