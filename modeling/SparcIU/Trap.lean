/-
# Traps

What can interrupt an instruction, with the number by which a handler knows it.
Software traps carry seven bits of their own.

Key definitions: `TrapKind`, `TrapKind.code`, `TrapKind.ofCode`, `Trap`.
-/
import SparcIU.Word
import SparcIU.Text.Numeral

namespace SparcIU

inductive TrapKind where
  | illegalInstruction
  | privilegedInstruction
  | windowOverflow
  | windowUnderflow
  | dataAccess
  | instructionAccess
  | divisionByZero
  /-- Raised by a conditional trap; only the low seven bits count. -/
  | software (n : UInt8)
  deriving DecidableEq, Repr

namespace TrapKind

/-- The number of the trap, as it stands in the trap base register. -/
def code : TrapKind → UInt8
  | illegalInstruction => 0x02
  | privilegedInstruction => 0x03
  | windowOverflow => 0x05
  | windowUnderflow => 0x06
  | dataAccess => 0x09
  | instructionAccess => 0x21
  | divisionByZero => 0x2a
  | software n => 0x80 + n % 0x80

/-- The trap a number stands for; the upper half of the numbers are software
traps. -/
def ofCode (c : UInt8) : Option TrapKind :=
  if 0x80 ≤ c then some (software (c % 0x80))
  else if c = 0x02 then some illegalInstruction
  else if c = 0x03 then some privilegedInstruction
  else if c = 0x05 then some windowOverflow
  else if c = 0x06 then some windowUnderflow
  else if c = 0x09 then some dataAccess
  else if c = 0x21 then some instructionAccess
  else if c = 0x2a then some divisionByZero
  else none

/-- The architectural name. -/
def name : TrapKind → String
  | illegalInstruction => "illegal_instruction"
  | privilegedInstruction => "privileged_instruction"
  | windowOverflow => "window_overflow"
  | windowUnderflow => "window_underflow"
  | dataAccess => "data_access_exception"
  | instructionAccess => "instruction_access_exception"
  | divisionByZero => "division_by_zero"
  | software _ => "trap_instruction"

/-- The name with the number. -/
def text (t : TrapKind) : String := t.name ++ " (tt=" ++ Numeral.hexPadded 2 t.code.toNat ++ ")"

end TrapKind

/-- A trap as it is reported: what was trapped, and where. -/
structure Trap where
  kind : TrapKind
  pc : Word
  npc : Word
  deriving DecidableEq, Repr

/-- The report of a trap in one line. -/
def Trap.text (t : Trap) : String :=
  t.kind.text ++ " at pc " ++ Numeral.hexPadded 8 t.pc.toNat
    ++ " (npc " ++ Numeral.hexPadded 8 t.npc.toNat ++ ")"

end SparcIU
