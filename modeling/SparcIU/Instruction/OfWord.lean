/-
# From words to instructions

Every word is an instruction, if only `Instr.unknown`. The format is in the top
two bits; then `op2` or `op3` decides.

Key definitions: `Word.operand`, `Instr.ofWord`.
-/
import SparcIU.Instruction
import SparcIU.Instruction.Fields

namespace SparcIU

/-- The second operand of format 3. -/
def Word.operand (w : Word) : Operand :=
  if w.immediate then .imm w.simm13 else .reg w.rs2

/-- Whether a word of format 3 names another address space: only the register
form can. -/
def Word.alternate (w : Word) : Bool := !w.immediate && w.asi != 0

namespace Instr

/-- Format 2: `nop` is op2 0 whatever the other bits hold. -/
def ofFormat2 (w : Word) : Instr :=
  match w.op2 with
  | 0 => nop
  | 2 => branch (Cond.ofField w.cond) w.annul w.branchOffset
  | 4 => sethi (w.imm22 * 1024) w.rd
  | _ => unknown w

/-- Format 3 with op 2: arithmetic, control and state registers. Of the
ancillary state registers only `%y` is known. -/
def ofFormat3 (w : Word) : Instr :=
  match w.op3 with
  | 0x00 => alu .add false w.rs1 w.operand w.rd
  | 0x01 => alu .and false w.rs1 w.operand w.rd
  | 0x02 => alu .or false w.rs1 w.operand w.rd
  | 0x03 => alu .xor false w.rs1 w.operand w.rd
  | 0x04 => alu .sub false w.rs1 w.operand w.rd
  | 0x05 => alu .andn false w.rs1 w.operand w.rd
  | 0x06 => alu .orn false w.rs1 w.operand w.rd
  | 0x0a => mul false false w.rs1 w.operand w.rd
  | 0x0b => mul true false w.rs1 w.operand w.rd
  | 0x0e => div false false w.rs1 w.operand w.rd
  | 0x0f => div true false w.rs1 w.operand w.rd
  | 0x10 => alu .add true w.rs1 w.operand w.rd
  | 0x11 => alu .and true w.rs1 w.operand w.rd
  | 0x12 => alu .or true w.rs1 w.operand w.rd
  | 0x13 => alu .xor true w.rs1 w.operand w.rd
  | 0x14 => alu .sub true w.rs1 w.operand w.rd
  | 0x1a => mul false true w.rs1 w.operand w.rd
  | 0x1b => mul true true w.rs1 w.operand w.rd
  | 0x1e => div false true w.rs1 w.operand w.rd
  | 0x1f => div true true w.rs1 w.operand w.rd
  | 0x24 => mulscc w.rs1 w.operand w.rd
  | 0x25 => shift .sll w.rs1 w.operand w.rd
  | 0x26 => shift .srl w.rs1 w.operand w.rd
  | 0x27 => shift .sra w.rs1 w.operand w.rd
  | 0x28 => if w.rs1 = 0 then readState .y w.rd else unknown w
  | 0x29 => readState .psr w.rd
  | 0x2a => readState .wim w.rd
  | 0x2b => readState .tbr w.rd
  | 0x30 => if w.rd = 0 then writeState w.rs1 w.operand .y else unknown w
  | 0x31 => writeState w.rs1 w.operand .psr
  | 0x32 => writeState w.rs1 w.operand .wim
  | 0x33 => writeState w.rs1 w.operand .tbr
  | 0x38 => jmpl w.rs1 w.operand w.rd
  | 0x39 => rett w.rs1 w.operand
  | 0x3a => trapIf (Cond.ofField w.cond) w.rs1 w.operand
  | 0x3c => save w.rs1 w.operand w.rd
  | 0x3d => restore w.rs1 w.operand w.rd
  | _ => unknown w

/-- Format 3 with op 3: loads and stores. -/
def ofMemory (w : Word) : Instr :=
  match w.op3 with
  | 0x00 => load .word w.alternate w.rs1 w.operand w.rd
  | 0x01 => load .unsignedByte w.alternate w.rs1 w.operand w.rd
  | 0x02 => load .unsignedHalf w.alternate w.rs1 w.operand w.rd
  | 0x03 => load .double w.alternate w.rs1 w.operand w.rd
  | 0x04 => store .word w.rd w.rs1 w.operand
  | 0x05 => store .byte w.rd w.rs1 w.operand
  | 0x06 => store .half w.rd w.rs1 w.operand
  | 0x07 => store .double w.rd w.rs1 w.operand
  | 0x09 => load .signedByte w.alternate w.rs1 w.operand w.rd
  | 0x0a => load .signedHalf w.alternate w.rs1 w.operand w.rd
  | 0x0d => load .testAndSet w.alternate w.rs1 w.operand w.rd
  | _ => unknown w

/-- The instruction a word stands for. -/
def ofWord (w : Word) : Instr :=
  match w.op with
  | 0 => ofFormat2 w
  | 1 => call w.callOffset
  | 2 => ofFormat3 w
  | _ => ofMemory w

end Instr
end SparcIU
