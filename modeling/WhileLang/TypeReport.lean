import WhileLang.Syntax
import WhileLang.Ty

/-!
# Type reports

What is reported about the types of a program: for every function its own type, and the types of the
terms in it by their printed forms.

Main definitions:

- Types {lit}`FunctionTypes` and {lit}`ProgramTypes`.
- Functions {lit}`FunctionTypes.typeOf?` and {lit}`ProgramTypes.function?`: looking up reports.
- Functions {lit}`FunctionTypes.text` and {lit}`ProgramTypes.text`: the printed reports.
-/

namespace WhileLang

/-- The types within a function. -/
structure FunctionTypes where
  name : String
  signature : Ty
  /-- The printed terms of the function, each once, with their types. -/
  subterms : List (String × Ty)
deriving DecidableEq

namespace FunctionTypes

/-- The type of a term, by its printed form. -/
def typeOf? (types : FunctionTypes) (printed : String) : Option Ty :=
  types.subterms.lookup printed

/-- A line for the function and an indented line for each of its terms. -/
def text (types : FunctionTypes) : String :=
  types.name ++ " : " ++ types.signature.text ++ "\n"
    ++ String.join
      (types.subterms.map fun (term, type) => "  " ++ term ++ " : " ++ type.text ++ "\n")

end FunctionTypes

/-- The types within a program. -/
structure ProgramTypes where
  /-- The functions but the entry point, in the order they are defined. -/
  functions : List FunctionTypes
  main : FunctionTypes
deriving DecidableEq

namespace ProgramTypes

/-- The types within a function. -/
def function? (types : ProgramTypes) (name : String) : Option FunctionTypes :=
  if name = entryPoint then some types.main else types.functions.find? (·.name = name)

/-- The reports of all functions, a blank line after each but the last. -/
def text (types : ProgramTypes) : String :=
  String.join (types.functions.map fun function => function.text ++ "\n") ++ types.main.text

end ProgramTypes

end WhileLang
