/-
# Fields of an instruction word

Where the formats put their fields, by their architectural names. Every field
can be read from every word; which of them mean something depends on the
format.

Key definitions: `Word.op`, `Word.op2`, `Word.op3`, `Word.rd`, `Word.rs1`,
`Word.rs2`, `Word.simm13`, `Word.branchOffset`, `Word.callOffset`.
-/
import SparcIU.Word
import SparcIU.Register

namespace SparcIU
namespace Word

/-- Bits 31:30, the format. -/
def op (w : Word) : Nat := w.toNat / 0x40000000

/-- Bits 24:22, the operation in format 2. -/
def op2 (w : Word) : Nat := w.toNat / 0x400000 % 8

/-- Bits 24:19, the operation in format 3. -/
def op3 (w : Word) : Nat := w.toNat / 0x80000 % 64

/-- Bit 29, annul. -/
def annul (w : Word) : Bool := w.toNat / 0x20000000 % 2 == 1

/-- Bit 13, immediate operand. -/
def immediate (w : Word) : Bool := w.toNat / 0x2000 % 2 == 1

/-- Bits 29:25, the destination. -/
def rd (w : Word) : Reg := Reg.ofNat (w.toNat / 0x2000000)

/-- Bits 18:14, the first source. -/
def rs1 (w : Word) : Reg := Reg.ofNat (w.toNat / 0x4000)

/-- Bits 4:0, the second source. -/
def rs2 (w : Word) : Reg := Reg.ofNat w.toNat

/-- Bits 28:25, the condition. -/
def cond (w : Word) : Nat := w.toNat / 0x2000000 % 16

/-- Bits 12:5, the address space of an alternate load or store. -/
def asi (w : Word) : Nat := w.toNat / 0x20 % 256

/-- Bits 12:0 as a signed operand. -/
def simm13 (w : Word) : Word := signExtend 13 w

/-- Bits 21:0, the upper bits that `sethi` sets. -/
def imm22 (w : Word) : Word := w % 0x400000

/-- Bits 6:0, a software trap number. -/
def imm7 (w : Word) : Word := w % 0x80

/-- Bits 21:0, the displacement of a branch in words. -/
def disp22 (w : Word) : Word := w % 0x400000

/-- Bits 29:0, the displacement of a call in words. -/
def disp30 (w : Word) : Word := w % 0x40000000

/-- The signed displacement of a branch in bytes. -/
def branchOffset (w : Word) : Word := signExtend 22 w.disp22 * 4

/-- The displacement of a call in bytes; times four it spans the whole address
space, so it needs no sign. -/
def callOffset (w : Word) : Word := w.disp30 * 4

end Word
end SparcIU
