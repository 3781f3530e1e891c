/-!
# Types

A type is a variable, a named constructor, or an arrow from a domain to a codomain.

Main definitions:

- Type {lit}`Ty`, with the constructors {lit}`Ty.int`, {lit}`Ty.bool` and {lit}`Ty.unit`.
- Function {lit}`Ty.text`: arrows associate to the right, so only a domain that is an arrow is put
  in parentheses.
- Function {lit}`Ty.vars`: the variables of a type, each once.
-/

namespace WhileLang

/-- A type. -/
inductive Ty where
  | var (name : String)
  | con (name : String)
  | arrow (domain codomain : Ty)
deriving DecidableEq, Inhabited

namespace Ty

/-- The type of integers. -/
def int : Ty :=
  .con "Int"

/-- The type of booleans. -/
def bool : Ty :=
  .con "Bool"

/-- The type of statements. -/
def unit : Ty :=
  .con "Unit"

/-- Whether a type is an arrow. -/
def isArrow : Ty → Bool
  | .arrow .. => true
  | _ => false

/-- The arrow through all of the types: the last is the result, those before are arguments. -/
def curried? : List Ty → Option Ty
  | [] => none
  | [result] => some result
  | domain :: rest => (curried? rest).map (.arrow domain)

/-- Whether a variable occurs in a type. -/
def contains (name : String) : Ty → Bool
  | .var other => other = name
  | .con _ => false
  | .arrow domain codomain => domain.contains name || codomain.contains name

/-- The variables of a type at every place they occur. -/
def occurrences : Ty → List String
  | .var name => [name]
  | .con _ => []
  | .arrow domain codomain => domain.occurrences ++ codomain.occurrences

/-- A type contains the variables that occur in it. -/
theorem contains_iff {name : String} {type : Ty} :
    type.contains name = true ↔ name ∈ type.occurrences := by
  induction type with
  | var other => simp [contains, occurrences, eq_comm]
  | con _ => simp [contains, occurrences]
  | arrow domain codomain ihd ihc => simp [contains, occurrences, ihd, ihc]

/-- The variables of a type, each once, in the order they first occur. -/
def vars (type : Ty) : List String :=
  type.occurrences.eraseDups

/-- A variable as it is printed. -/
def varText (name : String) : String :=
  "'" ++ name

/-- The printed form of a type. -/
def text : Ty → String
  | .var name => varText name
  | .con name => name
  | .arrow domain codomain =>
    (if domain.isArrow then "(" ++ domain.text ++ ")" else domain.text) ++ " -> " ++ codomain.text

end Ty

end WhileLang
