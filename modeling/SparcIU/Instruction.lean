/-
# Instructions

The instructions the integer unit tells apart, with their operands read out of
the word. The executor, the disassembler and the set of words the unit does not
implement all speak of these.

Key definitions: `Operand`, `Instr`, `Instr.implemented`.
-/
import SparcIU.Register
import SparcIU.Condition

namespace SparcIU

/-- The second operand: a register, or an immediate already widened to a word. -/
inductive Operand where
  | reg (r : Reg)
  | imm (value : Word)
  deriving DecidableEq, Repr

/-- Arithmetic and logical operations. -/
inductive AluOp where
  | add
  | and
  | or
  | xor
  | sub
  | andn
  | orn
  deriving DecidableEq, Repr

inductive ShiftOp where
  | sll
  | srl
  | sra
  deriving DecidableEq, Repr

/-- The state registers that have instructions to read and write them. -/
inductive StateReg where
  | y
  | psr
  | wim
  | tbr
  deriving DecidableEq, Repr

/-- What a load brings in; `testAndSet` also sets the byte it reads. -/
inductive LoadKind where
  | word
  | unsignedByte
  | unsignedHalf
  | double
  | signedByte
  | signedHalf
  | testAndSet
  deriving DecidableEq, Repr

/-- What a store writes out. -/
inductive StoreKind where
  | word
  | byte
  | half
  | double
  deriving DecidableEq, Repr

inductive Instr where
  | nop
  | sethi (value : Word) (rd : Reg)
  | branch (cond : Cond) (annul : Bool) (offset : Word)
  | call (offset : Word)
  | alu (op : AluOp) (setsIcc : Bool) (rs1 : Reg) (src : Operand) (rd : Reg)
  | shift (op : ShiftOp) (rs1 : Reg) (src : Operand) (rd : Reg)
  | mul (signed setsIcc : Bool) (rs1 : Reg) (src : Operand) (rd : Reg)
  | div (signed setsIcc : Bool) (rs1 : Reg) (src : Operand) (rd : Reg)
  | mulscc (rs1 : Reg) (src : Operand) (rd : Reg)
  | readState (state : StateReg) (rd : Reg)
  | writeState (rs1 : Reg) (src : Operand) (state : StateReg)
  | jmpl (rs1 : Reg) (src : Operand) (rd : Reg)
  | rett (rs1 : Reg) (src : Operand)
  | trapIf (cond : Cond) (rs1 : Reg) (src : Operand)
  | save (rs1 : Reg) (src : Operand) (rd : Reg)
  | restore (rs1 : Reg) (src : Operand) (rd : Reg)
  /-- `alternate` marks a register form that names another address space. -/
  | load (kind : LoadKind) (alternate : Bool) (rs1 : Reg) (src : Operand) (rd : Reg)
  | store (kind : StoreKind) (rd rs1 : Reg) (src : Operand)
  | unknown (word : Word)
  deriving DecidableEq, Repr

/-- Unknown words and loads from another address space stop the machine. -/
def Instr.implemented : Instr → Bool
  | unknown _ => false
  | load _ alternate _ _ _ => !alternate
  | _ => true

end SparcIU
