/-
# Number arguments

Addresses on a command line are decimal, or hexadecimal after `0x` or `0X`, with
blanks around them; after the prefix there may be one `+`. Counts are decimal
only and have no blanks.

Key definitions: `Command.readWord`, `Command.readCount`, `Command.readByte`.
-/
import SparcIU.Word
import SparcIU.Text.Numeral
import SparcIU.Text.Blank

namespace SparcIU
namespace Command

/-- The number of an address argument without blanks around it. -/
def readTrimmed : List Char → Except Numeral.Error Nat
  | '0' :: 'x' :: digits => Numeral.readNat 16 0x100000000 digits
  | '0' :: 'X' :: digits => Numeral.readNat 16 0x100000000 digits
  | cs => Numeral.readNat 10 0x100000000 cs

/-- An address argument. -/
def readWord (s : String) : Except Numeral.Error Word :=
  match readTrimmed (Text.trim s.toList) with
  | .ok n => .ok (UInt32.ofNat n)
  | .error e => .error e

/-- A count of up to 64 bits. -/
def readCount (s : String) : Option Nat :=
  (Numeral.readNat 10 0x10000000000000000 s.toList).toOption

/-- A small count; it is read with a sign, and nothing below zero is one. -/
def readByte (s : String) : Option UInt8 :=
  match s.toList with
  | '-' :: c :: cs =>
    match Numeral.readDigits 10 0x8000000000000001 (c :: cs) 0 with
    | .ok 0 => some 0
    | _ => none
  | cs =>
    match Numeral.readNat 10 0x100 cs with
    | .ok n => some (UInt8.ofNat n)
    | .error _ => none

end Command
end SparcIU
