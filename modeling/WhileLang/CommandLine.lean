import WhileLang.Source
import WhileLang.Syntax.Printer
import WhileLang.Text.Decimal

/-!
# The command line

What the arguments of a call ask for, and the answer to it.

Main definitions:

- Type {lit}`Request` and function {lit}`Request.ofArgs?`: there is no request behind arguments that
  are not understood.
- Type {lit}`Response` and function {lit}`Request.respond?`: what is written, and the exit code.
-/

namespace WhileLang

/-! ## Requests -/

/-- What can be done with a source. -/
inductive Command where
  | run
  | exec
  | types
  | fmt
deriving DecidableEq

/-- The command of a name. -/
def Command.ofName? : String → Option Command
  | "run" => some .run
  | "exec" => some .exec
  | "types" => some .types
  | "fmt" => some .fmt
  | _ => none

/-- The options, each of which takes a value. -/
inductive Flag where
  | logLevel
  | maxCallDepth
deriving DecidableEq

/-- The names of the log levels. -/
def logLevels : List String :=
  ["off", "error", "warn", "info", "debug", "trace"]

/-- A call of the program. -/
structure Request where
  command : Command
  path : String
  /-- The limit of nested calls as it was written. -/
  maxCallDepth : Option String
deriving DecidableEq

/-- The arguments read so far. -/
structure ArgReader where
  command : Option Command := none
  path : Option String := none
  maxCallDepth : Option String := none
  /-- The options given before or after the command, whichever is being read. -/
  given : List Flag := []
  /-- An option whose value comes next. -/
  pending : Option Flag := none
  /-- Whether options have been ended by two dashes. -/
  onlyPaths : Bool := false

namespace ArgReader

/-- Whether an argument is an option: it starts with a dash and has more than that. -/
def isOption (arg : String) : Bool :=
  arg.startsWith "-" && arg ≠ "-"

/-- The long name of an option; the limit of calls belongs to one command. -/
def longFlag? (reader : ArgReader) : String → Option Flag
  | "loglevel" => some .logLevel
  | "max-call-depth" => if reader.command = some .run then some .maxCallDepth else none
  | _ => none

/-- Meet an option, which may be given once on each side of the command. -/
def begin? (reader : ArgReader) (flag : Flag) : Option ArgReader :=
  if flag ∈ reader.given then none else some { reader with given := flag :: reader.given }

/-- Take the value of an option. -/
def takeValue? (reader : ArgReader) (flag : Flag) (value : String) : Option ArgReader :=
  match flag with
  | .logLevel => if value ∈ logLevels then some { reader with pending := none } else none
  | .maxCallDepth => some { reader with pending := none, maxCallDepth := some value }

/-- Take an option, with its value if that is attached. -/
def takeOption? (reader : ArgReader) (flag : Flag) (attached : Option String) :
    Option ArgReader := do
  let reader ← reader.begin? flag
  match attached with
  | some value => reader.takeValue? flag value
  | none => return { reader with pending := some flag }

/-- A text up to its first equals sign, and what follows it if there is one. -/
def splitAtEquals (text : List Char) : String × Option String :=
  (String.ofList (text.takeWhile (· ≠ '=')),
    match text.dropWhile (· ≠ '=') with
    | [] => none
    | _ :: value => some (String.ofList value))

/-- The value attached to a one-letter option; an equals sign before it does not count. -/
def attachedValue? : List Char → Option String
  | [] => none
  | '=' :: value => some (String.ofList value)
  | value => some (String.ofList value)

/-- Take an argument that is no option: the command first, and then the path. -/
def takePlain? (reader : ArgReader) (arg : String) : Option ArgReader :=
  match reader.command with
  | none =>
    if reader.onlyPaths then none
    else (Command.ofName? arg).map fun command =>
      { reader with command := some command, given := [] }
  | some _ =>
    match reader.path with
    | none => some { reader with path := some arg }
    | some _ => none

/-- Take the next argument. -/
def take? (reader : ArgReader) (arg : String) : Option ArgReader :=
  match reader.pending with
  | some flag => if isOption arg then none else reader.takeValue? flag arg
  | none =>
    if reader.onlyPaths then reader.takePlain? arg
    else
      match arg.toList with
      | ['-', '-'] => some { reader with onlyPaths := true }
      | '-' :: '-' :: long =>
        let (name, attached) := splitAtEquals long
        (reader.longFlag? name).bind fun flag => reader.takeOption? flag attached
      | '-' :: 'l' :: value => reader.takeOption? .logLevel (attachedValue? value)
      | '-' :: _ :: _ => none
      | _ => reader.takePlain? arg

/-- The request behind the arguments read, if it is whole. -/
def request? (reader : ArgReader) : Option Request :=
  match reader.pending, reader.command, reader.path with
  | none, some command, some path => some ⟨command, path, reader.maxCallDepth⟩
  | _, _, _ => none

end ArgReader

/-- The request behind the arguments of a call. -/
def Request.ofArgs? (args : List String) : Option Request :=
  (args.foldlM ArgReader.take? {}).bind ArgReader.request?

/-! ## Responses -/

/-- The answer to a call. -/
structure Response where
  code : Nat
  output : String := ""
  errors : String := ""
deriving DecidableEq

namespace Response

/-- The answer to arguments that are not understood. -/
def rejection : Response where
  code := 2

/-- The answer with a result. -/
def success (output : String) : Response where
  code := 0
  output := output

/-- A text with four spaces before each line that is not empty. -/
def indented (text : String) : String :=
  "\n".intercalate
    ((text.splitOn "\n").map fun line => if line.isEmpty then line else "    " ++ line)

/-- The answer with a message and what is behind it. -/
def failure (message cause : String) : Response where
  code := 1
  errors := "Error: " ++ message ++ "\n\nCaused by:\n" ++ indented cause ++ "\n"

/-- The answer with an error. -/
def ofError (error : Error) : Response :=
  failure error.message error.cause

/-- The answer with a text or an error. -/
def ofResult {α : Type} (text : α → String) : Except Error α → Response
  | .ok value => success (text value)
  | .error error => ofError error

end Response

namespace Request

/-- Run a program within the limit that was asked for.  The limit is read after the source. -/
def respondRun? (request : Request) (source : String) (fuel : Nat) : Option Response :=
  let run? (maxDepth : Nat) :=
    (Program.runSource? source maxDepth fuel).map (Response.ofResult Execution.text)
  match request.maxCallDepth with
  | none => run? defaultMaxDepth
  | some text =>
    match Decimal.readUnsigned Decimal.maxUnsigned64 text with
    | .ok maxDepth => run? maxDepth
    | .error fault => some (.failure ("invalid call depth: " ++ text) fault.message)

/--
Answer a request whose file has the given content, or cannot be read for the given cause.  There is
no answer if a run does not end within the fuel.
-/
def respond? (request : Request) (content : Except String ByteArray) (fuel : Nat) :
    Option Response :=
  match decodeSource request.path content with
  | .error error => some (.ofError error)
  | .ok source =>
    match request.command with
    | .run => request.respondRun? source fuel
    | .exec =>
      (Stmt.runSource? source defaultMaxDepth fuel).map (Response.ofResult Execution.text)
    | .types => some (.ofResult ProgramTypes.text (Program.inferTypesOfSource source))
    | .fmt => some (.ofResult Program.text (Program.ofSource source))

end Request

/-- Answer a call whose file is read by the given function. -/
def respondToArgs? (args : List String) (read : String → Except String ByteArray) (fuel : Nat) :
    Option Response :=
  match Request.ofArgs? args with
  | none => some .rejection
  | some request => request.respond? (read request.path) fuel

end WhileLang
