/-!
# Decimal numerals

Reading integers that must fit a machine word.  A numeral is an optional sign and at least one
decimal digit; it is read from the left, and the first fault met is the one reported.

Main definitions:

- Type {lit}`Decimal.Fault`: why a text is no numeral of a given range.
- Function {lit}`Decimal.readUnsigned`: a natural number up to a limit; only a plus sign is allowed.
- Function {lit}`Decimal.readInt64`: a signed 64-bit integer.
-/

namespace WhileLang
namespace Decimal

/-- Why a text cannot be read as an integer of the wanted range. -/
inductive Fault where
  | empty
  | invalidDigit
  | tooLarge
  | tooSmall
deriving DecidableEq

/-- The wording of a fault. -/
def Fault.message : Fault → String
  | .empty => "cannot parse integer from empty string"
  | .invalidDigit => "invalid digit found in string"
  | .tooLarge => "number too large to fit in target type"
  | .tooSmall => "number too small to fit in target type"

/-- The value of a decimal digit. -/
def digitValue? (c : Char) : Option Nat :=
  if c.isDigit then some (c.toNat - '0'.toNat) else none

/--
Read digits after a magnitude that has been read already.  A magnitude above {lit}`limit` is
the fault {lit}`excess`.
-/
def readDigits (limit : Nat) (excess : Fault) (magnitude : Nat) : List Char → Except Fault Nat
  | [] => .ok magnitude
  | c :: rest =>
    match digitValue? c with
    | none => .error .invalidDigit
    | some digit =>
      let next := magnitude * 10 + digit
      if limit < next then .error excess else readDigits limit excess next rest

/-- Read a magnitude of at least one digit. -/
def readMagnitude (limit : Nat) (excess : Fault) : List Char → Except Fault Nat
  | [] => .error .invalidDigit
  | digits => readDigits limit excess 0 digits

/-- Read a natural number of at most {lit}`limit`, perhaps after a plus sign. -/
def readUnsigned (limit : Nat) (text : String) : Except Fault Nat :=
  match text.toList with
  | [] => .error .empty
  | '+' :: digits => readMagnitude limit .tooLarge digits
  | digits => readMagnitude limit .tooLarge digits

/-- The largest magnitude of a negative 64-bit integer. -/
def int64Magnitude : Nat :=
  9223372036854775808

/-- Read a signed 64-bit integer, perhaps after a sign. -/
def readInt64 (text : String) : Except Fault Int64 :=
  match text.toList with
  | [] => .error .empty
  | '+' :: digits => (readMagnitude (int64Magnitude - 1) .tooLarge digits).map positive
  | '-' :: digits => (readMagnitude int64Magnitude .tooSmall digits).map negative
  | digits => (readMagnitude (int64Magnitude - 1) .tooLarge digits).map positive
where
  /-- A magnitude as an integer. -/
  positive (magnitude : Nat) : Int64 := .ofInt magnitude
  /-- A magnitude as an integer with a minus sign. -/
  negative (magnitude : Nat) : Int64 := .ofInt (-magnitude)

/-- The largest unsigned 64-bit integer. -/
def maxUnsigned64 : Nat :=
  2 * int64Magnitude - 1

end Decimal
end WhileLang
