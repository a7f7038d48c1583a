/-
# Instructions that touch the processor only

All but loads and stores are functions of the processor. An instruction that
cannot be carried out raises a trap and changes nothing else: every check comes
before the first write. A transfer of control queues its target, which takes
effect after the next instruction.

Key definitions: `Cpu.alu`, `Cpu.divide`, `Cpu.moveWindow`, `Cpu.returnFromTrap`,
`Cpu.operate`.
-/
import SparcIU.Cpu.Window
import SparcIU.Arithmetic

namespace SparcIU

/-- The result and the flags of an arithmetic or logical operation. -/
def AluOp.apply (op : AluOp) (a b : Word) : Word × Icc :=
  match op with
  | add => Arith.add a b
  | and => Arith.logical (a &&& b)
  | or => Arith.logical (a ||| b)
  | xor => Arith.logical (a ^^^ b)
  | sub => Arith.sub a b
  | andn => Arith.logical (a &&& ~~~b)
  | orn => Arith.logical (a ||| ~~~b)

/-- A shift by the low five bits of `n`. -/
def ShiftOp.apply (op : ShiftOp) (a n : Word) : Word :=
  match op with
  | sll => a <<< (n % 32)
  | srl => a >>> (n % 32)
  | sra => Arith.shiftRightSigned a n

namespace Cpu

/-! ### Arithmetic -/

/-- Writes a result, and its flags if the instruction sets them. -/
def finish (c : Cpu) (rd : Reg) (result : Word) (setsIcc : Bool) (f : Icc) : Cpu :=
  let c := c.set rd result
  if setsIcc then c.setIcc f else c

def alu (c : Cpu) (op : AluOp) (setsIcc : Bool) (rs1 : Reg) (src : Operand) (rd : Reg) : Cpu :=
  match op.apply (c.get rs1) (c.operand src) with
  | (result, f) => c.finish rd result setsIcc f

/-- The low word of the product goes to `rd`, the high word to `%y`. -/
def multiply (c : Cpu) (signed setsIcc : Bool) (rs1 : Reg) (src : Operand) (rd : Reg) : Cpu :=
  match Arith.product signed (c.get rs1) (c.operand src) with
  | (high, low) => { c with y := high }.finish rd low setsIcc (.ofResult low false false)

/-- The double word of `%y` and `rs1` is divided; a clamped quotient sets the
overflow flag. -/
def divide (c : Cpu) (signed setsIcc : Bool) (rs1 : Reg) (src : Operand) (rd : Reg) : Cpu :=
  match Arith.quotient signed c.y (c.get rs1) (c.operand src) with
  | none => c.raise .divisionByZero
  | some (q, clamped) => c.finish rd q setsIcc (.ofResult q clamped false)

def multiplyStep (c : Cpu) (rs1 : Reg) (src : Operand) (rd : Reg) : Cpu :=
  match Arith.mulStep c.psr.icc c.y (c.get rs1) (c.operand src) with
  | (sum, y, f) => { c with y }.finish rd sum true f

/-! ### State registers -/

/-- Goes on in supervisor mode only. -/
def supervised (c : Cpu) (act : Cpu → Cpu) : Cpu :=
  if c.psr.s then act c else c.raise .privilegedInstruction

def stateValue (c : Cpu) : StateReg → Word
  | .y => c.y
  | .psr => c.psr.toBits
  | .wim => c.wim
  | .tbr => c.tbr

/-- Writes a state register. A window that does not exist cannot be made
current; the invalid mask has no bits for such windows; of the trap base
register only the address can be written. -/
def setState (c : Cpu) (r : StateReg) (v : Word) : Cpu :=
  match r with
  | .y => { c with y := v }
  | .psr =>
    let psr := Psr.ofBits v
    if psr.cwp.val < c.config.windows.toNat then { c with psr } else c.raise .illegalInstruction
  | .wim => { c with wim := v &&& windowMask c.config.windows }
  | .tbr => { c with tbr := v - v % 0x1000 + c.tbr % 0x1000 }

/-! ### Transfers of control -/

/-- Queues the target of a transfer. -/
def transfer (c : Cpu) (target : Word) : Cpu := { c with branchTarget := some target }

/-- A branch that is taken queues its target. The annul bit skips the delay
slot if the branch is not taken, and also if it is always taken. -/
def branch (c : Cpu) (cond : Cond) (annul : Bool) (offset : Word) : Cpu :=
  let taken := cond.holds c.psr.icc
  let c := if taken then c.transfer (c.pc + offset) else c
  if annul && (!taken || cond == .always) then { c with pendingAnnul := true } else c

/-- A transfer that leaves its own address in `rd`; the target is formed first,
for `rd` may be one of its operands. -/
def link (c : Cpu) (rd : Reg) (target : Word) : Cpu := (c.set rd c.pc).transfer target

/-- Return from a trap: to the next higher window, with traps enabled and the
mode from before the trap. An invalid window outranks a missing privilege, and
that outranks traps that are enabled already. -/
def returnFromTrap (c : Cpu) (rs1 : Reg) (src : Operand) : Cpu :=
  let next := c.neighbour .up
  if c.isInvalid next then c.raise .windowUnderflow
  else if !c.psr.s then c.raise .privilegedInstruction
  else if c.psr.et then c.raise .illegalInstruction
  else
    let c := c.transfer (c.sum rs1 src)
    { c with psr := { c.psr with s := c.psr.ps, et := true } }.setCwp next

/-- A conditional trap carries the low seven bits of the sum. -/
def trapIf (c : Cpu) (cond : Cond) (rs1 : Reg) (src : Operand) : Cpu :=
  if cond.holds c.psr.icc then c.raise (.software (c.sum rs1 src % 0x80).toUInt8) else c

/-! ### Windows -/

/-- The trap of an invalid window, by the way it is entered. -/
def windowTrap : Turn → TrapKind
  | .down => .windowOverflow
  | .up => .windowUnderflow

/-- Saves and restores add in the old window and write in the new one. -/
def moveWindow (c : Cpu) (t : Turn) (rs1 : Reg) (src : Operand) (rd : Reg) : Cpu :=
  let next := c.neighbour t
  if c.isInvalid next then c.raise (windowTrap t)
  else
    let v := c.sum rs1 src
    (c.setCwp next).set rd v

/-! ### Dispatch -/

/-- The effect of an instruction that does not use the bus; none for the
others. -/
def operate (c : Cpu) : Instr → Cpu
  | .sethi v rd => c.set rd v
  | .branch cond annul offset => c.branch cond annul offset
  | .call offset => c.link Reg.o7 (c.pc + offset)
  | .alu op setsIcc rs1 src rd => c.alu op setsIcc rs1 src rd
  | .shift op rs1 src rd => c.set rd (op.apply (c.get rs1) (c.operand src))
  | .mul signed setsIcc rs1 src rd => c.multiply signed setsIcc rs1 src rd
  | .div signed setsIcc rs1 src rd => c.divide signed setsIcc rs1 src rd
  | .mulscc rs1 src rd => c.multiplyStep rs1 src rd
  | .readState r rd => c.supervised fun c => c.set rd (c.stateValue r)
  | .writeState rs1 src r => c.supervised fun c => c.setState r (c.get rs1 ^^^ c.operand src)
  | .jmpl rs1 src rd => c.link rd (c.sum rs1 src)
  | .rett rs1 src => c.returnFromTrap rs1 src
  | .trapIf cond rs1 src => c.trapIf cond rs1 src
  | .save rs1 src rd => c.moveWindow .down rs1 src rd
  | .restore rs1 src rd => c.moveWindow .up rs1 src rd
  | .nop | .load .. | .store .. | .unknown _ => c

end Cpu
end SparcIU
