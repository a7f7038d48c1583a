/-
# Register windows

Registers 0 to 7 are global. Registers 8 to 31 are the outs, locals and ins of
the current window; they lie in the file at `n + 16 * CWP`, and past its end at
the first window again, so that the ins of a window are the outs of the next
higher one and the windows form a ring. A save moves to the next lower window,
a restore to the next higher one.

Key definitions: `Cpu.index`, `Cpu.get`, `Cpu.set`, `Cpu.neighbour`,
`Cpu.rotate`, `Cpu.windowMask`, `Cpu.isInvalid`.
-/
import SparcIU.Cpu
import SparcIU.Register
import SparcIU.Instruction

namespace SparcIU

/-- The two ways around the ring: `up` to higher window numbers, `down` to
lower ones. -/
inductive Turn where
  | up
  | down
  deriving DecidableEq, Repr

namespace Cpu

/-- The number of the current window. -/
def cwp (c : Cpu) : Nat := c.psr.cwp.val

/-- Makes a window current, by the low five bits of its number. -/
def setCwp (c : Cpu) (window : Nat) : Cpu :=
  { c with psr := { c.psr with cwp := Fin.ofNat 32 window } }

/-- The place of a logical register in the file. -/
def index (c : Cpu) (r : Reg) : Nat :=
  if r.val < 8 then r.val
  else
    let i := r.val + 16 * c.cwp
    if i < c.regs.size then i else i % c.regs.size + 8

/-- The value of a register; register 0 is zero. -/
def get (c : Cpu) (r : Reg) : Word := if r = 0 then 0 else c.regs.getD (c.index r) 0

/-- Writes a register; what is written to register 0 is dropped. -/
def set (c : Cpu) (r : Reg) (v : Word) : Cpu :=
  if r = 0 then c
  else
    let i := c.index r
    { c with regs := c.regs.setIfInBounds i v }

/-- The window next to the current one. -/
def neighbour (c : Cpu) (t : Turn) : Nat :=
  let n := c.config.windows.toNat
  match t with
  | .up => (c.cwp + n + 1) % n
  | .down => (c.cwp + n - 1) % n

/-- Moves to the next window, whether it is valid or not. -/
def rotate (c : Cpu) (t : Turn) : Cpu := c.setCwp (c.neighbour t)

/-- One bit for each of `n` windows. -/
def windowMask (n : UInt8) : Word := if 32 ≤ n then 0xffffffff else (1 <<< n.toUInt32) - 1

/-- Whether the invalid mask covers a window. -/
def isInvalid (c : Cpu) (window : Nat) : Bool :=
  window < 32 && (c.wim >>> UInt32.ofNat window) % 2 == 1

/-- The value of a second operand. -/
def operand (c : Cpu) : Operand → Word
  | .reg r => c.get r
  | .imm v => v

/-- The sum of the two operands: the address of a load, a store or a jump. -/
def sum (c : Cpu) (rs1 : Reg) (src : Operand) : Word := c.get rs1 + c.operand src

end Cpu
end SparcIU
