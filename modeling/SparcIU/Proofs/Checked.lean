/-
# Steps with every check made

Parts of a step are not defined on everything they could be given: a place may lie
outside the file, a shift may be as far as a word is wide, a number may not fit its
type, a divisor may be zero, a window may not exist, and two case distinctions over
fields of the word have a case that must not arise. Here a step is written with a
check in front of each of them. It goes by the numbers in the word, in the groups
they form for the executor, and asks `Instr.ofWord` only for what is remarked. Shifts
by a written amount and arithmetic modulo 2^32 have nothing to check.

Key definitions: `Breach`, `Halt`, `Checked`, `Checked.exec`, `Checked.step`.
-/
import Mathlib.Algebra.Group.Int.Defs
import SparcIU.Proofs.MachineArithmetic
import SparcIU.Proofs.Ring
import SparcIU.Execution.Step

namespace SparcIU

/-- What a check finds. -/
inductive Breach where
  /-- A place outside the file. -/
  | index
  /-- A shift as far as the operand is wide, or farther. -/
  | shift
  /-- A number that its type does not hold. -/
  | overflow
  | division
  /-- A window that does not exist. -/
  | window
  /-- The case that must not arise. -/
  | unreachable
  deriving DecidableEq, Repr

/-- Why an instruction has no result: it is not implemented, or a check fails. -/
inductive Halt where
  | unimplemented
  | breach (b : Breach)
  deriving DecidableEq, Repr

abbrev Checked (α : Type) : Type := Except Halt α

namespace Checked

/-! ### Checks -/

def require (p : Prop) [Decidable p] (b : Breach) : Checked Unit :=
  if p then return () else throw (.breach b)

/-- A number of a type of so many bits. -/
def fits (signed : Bool) (bits : Nat) (v : Int) : Checked Int := do
  if signed then require (-2 ^ (bits - 1) ≤ v ∧ v < 2 ^ (bits - 1)) .overflow
  else require (0 ≤ v ∧ v < 2 ^ bits) .overflow
  return v

/-- How far to shift an operand of so many bits. -/
def amount (bits n : Nat) : Checked Nat := do
  require (n < bits) .shift
  return n

/-! ### Registers and windows -/

def place (c : Cpu) (r : Reg) : Checked Nat :=
  if r.val < 8 then return r.val
  else
    let i := r.val + 16 * c.cwp
    if i < c.regs.size then return i
    else do
      require (c.regs.size ≠ 0) .division
      return i % c.regs.size + 8

def get (c : Cpu) (r : Reg) : Checked Word :=
  if r = 0 then return 0
  else do
    let i ← place c r
    require (i < c.regs.size) .index
    return c.regs.getD i 0

def set (c : Cpu) (r : Reg) (v : Word) : Checked Cpu :=
  if r = 0 then return c
  else do
    let i ← place c r
    require (i < c.regs.size) .index
    return { c with regs := c.regs.setIfInBounds i v }

def clearZero (c : Cpu) : Checked Cpu := do
  require (0 < c.regs.size) .index
  return c.clearZero

def neighbour (c : Cpu) (t : Turn) : Checked Nat := do
  let next ← match t with
    | .up => fits false 32 (c.cwp + c.windows + 1)
    | .down => fits false 32 (c.cwp + c.windows - 1)
  require (c.windows ≠ 0) .division
  return next.toNat % c.windows

def setCwp (c : Cpu) (window : Nat) : Checked Cpu := do
  require (window < c.windows) .window
  return c.setCwp window

def isInvalid (c : Cpu) (window : Nat) : Checked Bool :=
  if window < 32 then do
    let k ← amount 32 window
    return (c.wim >>> UInt32.ofNat k) % 2 == 1
  else return false

def windowMask (n : UInt8) : Checked Word :=
  if 32 ≤ n then return 0xffffffff
  else do
    let k ← amount 32 n.toNat
    let low ← fits false 32 (((1 : Word) <<< UInt32.ofNat k).toNat - 1)
    return UInt32.ofInt low

/-! ### Operands -/

/-- The distance by which a field of so many bits is pushed to the top. -/
def gap (bits : Nat) : Checked Nat := do
  let n ← fits false 32 (32 - bits)
  amount 32 n.toNat

def operand (c : Cpu) (w : Word) : Checked Word :=
  if w.immediate then return w.simm13 else get c w.rs2

def sum (c : Cpu) (w : Word) : Checked Word := do
  let a ← get c w.rs1
  let b ← operand c w
  return a + b

/-- The operations on one row of four-bit numbers set the flags. -/
def setsIcc (op3 : Nat) : Bool := 0x10 ≤ op3 && op3 < 0x20

/-- The flags of a result, if the operation sets them. -/
def commit (c : Cpu) (op3 : Nat) (f : Icc) : Cpu := if setsIcc op3 then c.setIcc f else c

/-! ### Arithmetic -/

/-- An operation by the low four bits of its number. -/
def aluResult (n : Nat) (a b : Word) : Checked (Word × Icc) :=
  match n with
  | 0 => return Arith.add a b
  | 1 => return Arith.logical (a &&& b)
  | 2 => return Arith.logical (a ||| b)
  | 3 => return Arith.logical (a ^^^ b)
  | 4 => do
    let _ ← fits true 64 (a.toInt - b.toInt)
    return Arith.sub a b
  | 5 => return Arith.logical (a &&& ~~~b)
  | 6 => return Arith.logical (a ||| ~~~b)
  | _ => throw (.breach .unreachable)

def alu (c : Cpu) (w : Word) : Checked Cpu := do
  let a ← get c w.rs1
  let b ← operand c w
  let (result, f) ← aluResult (w.op3 % 16) a b
  let c ← set c w.rd result
  return commit c w.op3 f

def shiftOp (op3 : Nat) : ShiftOp :=
  match op3 with
  | 0x25 => .sll
  | 0x26 => .srl
  | _ => .sra

def shift (c : Cpu) (w : Word) : Checked Cpu := do
  let a ← get c w.rs1
  let b ← operand c w
  let _ ← amount 32 (b % 32).toNat
  set c w.rd ((shiftOp w.op3).apply a b)

def multiply (c : Cpu) (w : Word) : Checked Cpu := do
  let a ← get c w.rs1
  let b ← operand c w
  let signed := w.op3 != 0x0a && w.op3 != 0x1a
  let _ ← fits signed 64 (Arith.value signed a * Arith.value signed b)
  let (high, low) := Arith.product signed a b
  let c ← set { c with y := high } w.rd low
  return commit c w.op3 (.ofResult low false false)

/-- The quotient of two numbers of 64 bits with a sign, if it is one. -/
def signedQuotient (a b : Int) : Option Int :=
  if b = 0 ∨ a = -2 ^ 63 ∧ b = -1 then none else some (a.tdiv b)

/-- A quotient clamped to a word. -/
def clamp (signed : Bool) (q : Int) : Word × Bool :=
  let (least, greatest) := Arith.range signed
  if least ≤ q ∧ q ≤ greatest then (UInt32.ofInt q, false)
  else if 0 < q then (UInt32.ofInt greatest, true)
  else (UInt32.ofInt least, true)

/-- Only the least number divided by -1 has no quotient with a sign, and it would be
far above every word. -/
def quotient (signed : Bool) (high low b : Word) : Checked (Option (Word × Bool)) :=
  if b = 0 then return none
  else if signed then
    match signedQuotient (high.toInt * 0x100000000 + low.toNat) b.toInt with
    | none => return some (0x7fffffff, true)
    | some q => return some (clamp true q)
  else do
    require (b.toNat ≠ 0) .division
    return some (clamp false ((high.toNat * 0x100000000 + low.toNat) / b.toNat : Nat))

def divide (c : Cpu) (w : Word) : Checked Cpu := do
  let a ← get c w.rs1
  let b ← operand c w
  match ← quotient (w.op3 != 0x0e && w.op3 != 0x1e) c.y a b with
  | none => return c.raise .divisionByZero
  | some (q, clamped) =>
    let c ← set c w.rd q
    return commit c w.op3 (.ofResult q clamped false)

/-- The second operand is read only if it is added. -/
def addend (c : Cpu) (w : Word) : Checked Word := if c.y % 2 == 1 then operand c w else return 0

def multiplyStep (c : Cpu) (w : Word) : Checked Cpu := do
  let a ← get c w.rs1
  let b ← addend c w
  let (result, y, f) := Arith.mulStep c.psr.icc c.y a b
  set ({ c with y }.setIcc f) w.rd result

/-! ### State registers -/

def readReg (op3 : Nat) : StateReg :=
  match op3 with
  | 0x28 => .y
  | 0x29 => .psr
  | 0x2a => .wim
  | _ => .tbr

def readState (c : Cpu) (w : Word) : Checked Cpu :=
  if w.op3 = 0x28 ∧ w.rs1 ≠ 0 then throw .unimplemented
  else if c.psr.s then set c w.rd (c.stateValue (readReg w.op3))
  else return c.raise .privilegedInstruction

def writeReg (op3 : Nat) : StateReg :=
  match op3 with
  | 0x30 => .y
  | 0x31 => .psr
  | 0x32 => .wim
  | _ => .tbr

def writeState (c : Cpu) (w : Word) : Checked Cpu :=
  if w.op3 = 0x30 ∧ w.rd ≠ 0 then throw .unimplemented
  else if c.psr.s then do
    let a ← get c w.rs1
    let b ← operand c w
    match writeReg w.op3 with
    | .wim => do
      let mask ← windowMask c.config.windows
      return { c with wim := (a ^^^ b) &&& mask }
    | r => return c.setState r (a ^^^ b)
  else return c.raise .privilegedInstruction

/-! ### Transfers of control and windows -/

def branch (c : Cpu) (w : Word) : Checked Cpu := do
  let _ ← gap 22
  return c.branch (Cond.ofField w.cond) w.annul w.branchOffset

def call (c : Cpu) (w : Word) : Checked Cpu := do
  let target := c.pc + w.callOffset
  let c ← set c Reg.o7 c.pc
  return c.transfer target

def jmpl (c : Cpu) (w : Word) : Checked Cpu := do
  let target ← sum c w
  let c ← set c w.rd c.pc
  return c.transfer target

def returnFromTrap (c : Cpu) (w : Word) : Checked Cpu := do
  let next ← neighbour c .up
  if ← isInvalid c next then return c.raise .windowUnderflow
  else if !c.psr.s then return c.raise .privilegedInstruction
  else if c.psr.et then return c.raise .illegalInstruction
  else
    let target ← sum c w
    setCwp { c.transfer target with psr := { c.psr with s := c.psr.ps, et := true } } next

def trapIf (c : Cpu) (w : Word) : Checked Cpu :=
  if (Cond.ofField w.cond).holds c.psr.icc then do
    let n ← sum c w
    return c.raise (.software (n % 0x80).toUInt8)
  else return c

def moveWindow (c : Cpu) (t : Turn) (w : Word) : Checked Cpu := do
  let next ← neighbour c t
  if ← isInvalid c next then return c.raise (Cpu.windowTrap t)
  else
    let v ← sum c w
    let c ← setCwp c next
    set c w.rd v

/-! ### Dispatch by numbers -/

def format2 (c : Cpu) (w : Word) : Checked Cpu :=
  match w.op2 with
  | 0 => return c
  | 2 => branch c w
  | 4 => set c w.rd (w.imm22 * 1024)
  | _ => throw .unimplemented

def format3 (c : Cpu) (w : Word) : Checked Cpu :=
  match w.op3 with
  | 0x00 | 0x01 | 0x02 | 0x03 | 0x04 | 0x05 | 0x06
  | 0x10 | 0x11 | 0x12 | 0x13 | 0x14 => alu c w
  | 0x25 | 0x26 | 0x27 => shift c w
  | 0x0a | 0x0b | 0x1a | 0x1b => multiply c w
  | 0x0e | 0x0f | 0x1e | 0x1f => divide c w
  | 0x24 => multiplyStep c w
  | 0x28 | 0x29 | 0x2a | 0x2b => readState c w
  | 0x30 | 0x31 | 0x32 | 0x33 => writeState c w
  | 0x38 => jmpl c w
  | 0x39 => returnFromTrap c w
  | 0x3a => trapIf c w
  | 0x3c => moveWindow c .down w
  | 0x3d => moveWindow c .up w
  | _ => throw .unimplemented

/-! ### Loads and stores -/

/-- Goes on with a value, or ends in what was found. -/
def andThen {α β : Type} (x : Checked α) (next : α → Dialogue (Checked β)) : Dialogue (Checked β) :=
  match x with
  | .ok a => next a
  | .error e => .done (.error e)

def readWord (c : Cpu) (addr : Word) (next : Word → Dialogue (Checked Cpu)) : Dialogue (Checked Cpu) :=
  if addr.isAligned then
    .read addr fun
      | .ok w => next w
      | .error e => .remark (.loadFailed addr e) (.done (.ok (c.raise .dataAccess)))
  else .remark (.misalignedLoad addr) (.done (.ok (c.raise .dataAccess)))

def writeWord (c : Cpu) (addr v : Word) (next : Dialogue (Checked Cpu)) : Dialogue (Checked Cpu) :=
  if addr.isAligned then
    .write addr v fun
      | .ok () => next
      | .error e => .remark (.storeFailed addr e) (.done (.ok (c.raise .dataAccess)))
  else .remark (.misalignedStore addr) (.done (.ok (c.raise .dataAccess)))

/-- How far the byte at an address is from the low end of its word. -/
def byteShift (addr : Word) : Checked Nat := do
  let above ← fits false 32 (3 - (addr % 4).toNat)
  let n ← fits false 32 (above * 8)
  amount 32 n.toNat

/-- How far a half is from the low end of its word. -/
def halfShift (addr : Word) : Checked Nat := amount 32 (if addr.isAligned then 16 else 0)

/-- The odd register of a pair: one after the even one, in a number of eight bits. -/
def oddOf (r : Reg) : Checked Reg := do
  let n ← fits false 8 (r.val / 2 * 2 + 1)
  return Reg.ofNat n.toNat

/-- The loads that can name another address space. -/
def isLoad (op3 : Nat) : Bool := op3 ∈ [0x00, 0x01, 0x02, 0x03, 0x09, 0x0a, 0x0d]

/-- Reads the word around a byte or a half, and writes it back with that replaced. -/
def storePart (c : Cpu) (addr : Word) (replace : Word → Word) : Dialogue (Checked Cpu) :=
  readWord c addr.alignDown fun old => writeWord c addr.alignDown (replace old) (.done (.ok c))

/-- What a load or a store does at an address. -/
def access (c : Cpu) (w addr : Word) : Dialogue (Checked Cpu) :=
  match w.op3 with
  | 0x00 => readWord c addr fun v => .done (set c w.rd v)
  | 0x01 | 0x09 =>
    readWord c addr.alignDown fun v => andThen (byteShift addr) fun _ =>
      let byte := (v.byte addr.lane).toUInt32
      .done (set c w.rd (if w.op3 = 0x09 then Word.signExtend 8 byte else byte))
  | 0x02 | 0x0a =>
    readWord c addr.alignDown fun v => andThen (halfShift addr) fun _ =>
      let half := (v.half (Cpu.isUpperHalf addr)).toUInt32
      .done (set c w.rd (if w.op3 = 0x0a then Word.signExtend 16 half else half))
  | 0x03 =>
    readWord c addr fun high => andThen (set c (Cpu.evenOf w.rd) high) fun c =>
      readWord c (addr + 4) fun low => andThen (oddOf w.rd) fun rd => .done (set c rd low)
  | 0x04 => andThen (get c w.rd) fun v => writeWord c addr v (.done (.ok c))
  | 0x05 =>
    andThen (get c w.rd) fun v => andThen (byteShift addr) fun _ =>
      storePart c addr (·.setByte addr.lane v.toUInt8)
  | 0x06 =>
    andThen (get c w.rd) fun v => andThen (halfShift addr) fun _ =>
      storePart c addr (·.setHalf (Cpu.isUpperHalf addr) v.toUInt16)
  | 0x07 =>
    andThen (get c (Cpu.evenOf w.rd)) fun high => andThen (oddOf w.rd) fun rd =>
      andThen (get c rd) fun low =>
        writeWord c addr high (writeWord c (addr + 4) low (.done (.ok c)))
  | 0x0d =>
    andThen (byteShift addr) fun _ => readWord c addr.alignDown fun v =>
      andThen (set c w.rd (v.byte addr.lane).toUInt32) fun c =>
        writeWord c addr.alignDown (v.setByte addr.lane 0xff) (.done (.ok c))
  | _ => .done (throw .unimplemented)

def memory (c : Cpu) (w : Word) : Dialogue (Checked Cpu) :=
  if !w.immediate && w.asi != 0 && isLoad w.op3 then .done (throw .unimplemented)
  else andThen (sum c w) (access c w)

/-! ### Steps -/

/-- Reading the fields of a word takes a sign extension; then the format decides. -/
def exec (c : Cpu) (w : Word) : Dialogue (Checked Cpu) :=
  andThen (gap 13) fun _ =>
    match w.op with
    | 0 => .done (format2 c w)
    | 1 => .done (call c w)
    | 2 => .done (format3 c w)
    | 3 => memory c w
    | _ => .done (throw (.breach .unreachable))

/-- Spelling out an address negates a negative offset, so the immediate of any word is
made sure to have a negative. -/
def spell (w : Word) : Checked Unit := do
  if w.immediate ∧ w.simm13.toInt < 0 then
    let _ ← fits true 32 (-w.simm13.toInt)

/-- The end of an instruction: register 0 of the file is cleared once more. -/
def retire (c : Cpu) : Dialogue (Checked (StepResult × Cpu)) :=
  andThen (clearZero c) fun c => c.retire.map .ok

def take (c : Cpu) (w : Word) : Dialogue (Checked (StepResult × Cpu)) :=
  andThen (clearZero c) fun c => andThen (spell w) fun _ =>
    let i := Instr.ofWord w
    if c.pendingAnnul then .remark (.annuls c.pc i) (retire { c with pendingAnnul := false })
    else
      .remark (.executes c.pc i) <| (exec c w).bind fun
        | .ok c => retire c
        | .error .unimplemented =>
          .remark (.unimplemented c.pc w) (.done (.ok (.unimplemented w, c)))
        | .error (.breach b) => .done (throw (.breach b))

/-- A step that ends in a breach if a check fails. -/
def step (c : Cpu) : Dialogue (Checked (StepResult × Cpu)) :=
  if c.pc.isAligned then
    .read c.pc fun
      | .ok word =>
        match c.pendingTrap with
        | some t => .done (.ok (.trapped (c.report t), c))
        | none => take c word
      | .error e => .remark (.fetchFailed c.pc e) ((c.trapped .instructionAccess).map .ok)
  else .remark (.misalignedFetch c.pc) ((c.trapped .instructionAccess).map .ok)

end Checked
end SparcIU
