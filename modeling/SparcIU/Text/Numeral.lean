/-
# Numerals

Numbers are written in decimal, or in hexadecimal with lower-case digits after
`0x`. A number is read digit by digit from the left; the first digit that is
none, or that carries the value past the limit, decides the error.

Key definitions: `Numeral.hex`, `Numeral.hexPadded`, `Numeral.readNat`,
`Numeral.Error`.
-/

namespace SparcIU
namespace Numeral

/-- Hexadecimal digits without leading zeros. -/
def hexDigits (n : Nat) : String := String.ofList (Nat.toDigits 16 n)

/-- `0x` and the digits of `n`. -/
def hex (n : Nat) : String := "0x" ++ hexDigits n

/-- The digits of `n`, filled up with leading zeros to `width` of them. -/
def paddedDigits (width n : Nat) : String :=
  let digits := Nat.toDigits 16 n
  String.ofList (List.replicate (width - digits.length) '0' ++ digits)

/-- `0x` and at least `width` digits. -/
def hexPadded (width n : Nat) : String := "0x" ++ paddedDigits width n

/-! ### Reading -/

/-- Why a text is no number. -/
inductive Error where
  | empty
  | invalidDigit
  | tooLarge
  deriving DecidableEq, Repr

def Error.message : Error → String
  | empty => "cannot parse integer from empty string"
  | invalidDigit => "invalid digit found in string"
  | tooLarge => "number too large to fit in target type"

/-- The value of a digit in `base`, with letters of either case after 9. -/
def digitValue (base : Nat) (c : Char) : Option Nat :=
  let value :=
    if '0' ≤ c ∧ c ≤ '9' then c.toNat - '0'.toNat
    else if 'a' ≤ c ∧ c ≤ 'z' then c.toNat - 'a'.toNat + 10
    else if 'A' ≤ c ∧ c ≤ 'Z' then c.toNat - 'A'.toNat + 10
    else base
  if value < base then some value else none

/-- The value of the digits `cs` after `acc`, below `limit`. -/
def readDigits (base limit : Nat) : List Char → Nat → Except Error Nat
  | [], acc => .ok acc
  | c :: cs, acc =>
    match digitValue base c with
    | none => .error .invalidDigit
    | some d =>
      if acc * base + d < limit then readDigits base limit cs (acc * base + d)
      else .error .tooLarge

/-- A natural number below `limit`: at most one `+`, then one or more digits. -/
def readNat (base limit : Nat) : List Char → Except Error Nat
  | [] => .error .empty
  | ['+'] => .error .invalidDigit
  | '+' :: cs => readDigits base limit cs 0
  | cs => readDigits base limit cs 0

end Numeral
end SparcIU
