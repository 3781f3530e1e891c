/-!
# Values

A value is a 64-bit signed integer or a boolean.  Values are at once the literals of the language
and what expressions evaluate to.

Main definitions:

- Type {lit}`Value`, whose default is the integer zero.
- Function {lit}`Value.truthy`: how a condition judges a value of either kind.
- Function {lit}`Value.text`: the printed form, which reads back as the same literal.
-/

namespace WhileLang

/-- An integer (arithmetic wraps around) or a boolean. -/
inductive Value where
  | int (number : Int64)
  | bool (truth : Bool)
deriving DecidableEq

namespace Value

/-- The integer zero is what a variable holds before its first assignment. -/
instance : Inhabited Value := ⟨.int 0⟩

/-- A boolean is itself as a condition, and an integer holds unless it is zero. -/
def truthy : Value → Bool
  | .int number => number ≠ 0
  | .bool truth => truth

/-- The name of the kind a value belongs to. -/
def kind : Value → String
  | .int _ => "Int"
  | .bool _ => "Bool"

/-- An integer prints in decimal, a boolean as its keyword. -/
def text : Value → String
  | .int number => toString number.toInt
  | .bool true => "true"
  | .bool false => "false"

/-- The kind and the printed form, as error messages show a value. -/
def describe (value : Value) : String :=
  value.kind ++ " " ++ value.text

end Value

end WhileLang
