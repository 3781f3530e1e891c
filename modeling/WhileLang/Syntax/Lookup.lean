import WhileLang.SemanticError
import WhileLang.Syntax

/-!
# Looking up functions

A name that a program calls has to be defined in it, and a missing definition is an error.

Main definitions:

- Function {lit}`Program.defines`: whether a name is defined.
- Function {lit}`Program.effective`: the effective definition of a name, or the error.
-/

namespace WhileLang
namespace Program

/-- Whether a program defines a function of a name. -/
def defines (program : Program) (name : String) : Bool :=
  (program.function? name).isSome

/-- The effective definition of a name, which has to be there. -/
def effective (program : Program) (name : String) : Except SemanticError FunctionDef :=
  match program.function? name with
  | some function => .ok function
  | none => .error (.unknownFunction name)

/-- A name that is defined has an effective definition. -/
theorem defines_iff_effective {program : Program} {name : String} :
    program.defines name = true ↔ ∃ function, program.effective name = .ok function := by
  unfold defines effective
  cases program.function? name <;> simp

end Program
end WhileLang
