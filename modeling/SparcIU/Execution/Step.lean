/-
# One step

A step fetches the word at the program counter and carries it out. While a trap
is pending it does nothing else, and while a slot is to be skipped it only moves
on. After an instruction without a trap the program counter takes the value of
its successor, and the successor the queued target, if there is one. A word that
is not implemented stops the machine for good.

Key definitions: `StepResult`, `Cpu.advance`, `Cpu.retire`, `Cpu.step`.
-/
import SparcIU.Execution.Memory

namespace SparcIU

inductive StepResult where
  | completed
  | trapped (t : Trap)
  | unimplemented (word : Word)
  deriving DecidableEq, Repr

/-- What is said of a word that stops the machine at `pc`. -/
def unimplementedText (pc word : Word) : String :=
  "unimplemented instruction " ++ Numeral.hexPadded 8 word.toNat ++ " at pc "
    ++ Numeral.hexPadded 8 pc.toNat

/-- The same with the fields that decide the operation. -/
def unimplementedReport (pc word : Word) : String :=
  unimplementedText pc word ++ " (op=" ++ Numeral.hex word.op ++ " op2=" ++ Numeral.hex word.op2
    ++ " op3=" ++ Numeral.hex word.op3 ++ ")"

namespace Cpu

/-- Moves on to the next instruction. -/
def advance (c : Cpu) : Cpu :=
  { c with pc := c.npc, npc := c.branchTarget.getD (c.npc + 4), branchTarget := none }

/-- Leaves a trap pending and reports it. -/
def trapped (c : Cpu) (t : TrapKind) : Dialogue (StepResult × Cpu) :=
  .remark (.raises c.pc t) (.done (.trapped (c.report t), c.raise t))

/-- The end of an instruction: a trap it raised stays pending, else the
processor moves on. -/
def retire (c : Cpu) : Dialogue (StepResult × Cpu) :=
  match c.pendingTrap with
  | some t => .remark (.raises c.pc t) (.done (.trapped (c.report t), c))
  | none => .done (.completed, c.advance)

/-- The dialogue of an instruction with what follows it. -/
def dispatch (c : Cpu) (word : Word) (i : Instr) : Dialogue (StepResult × Cpu) :=
  if i.implemented then (c.execute i).bind retire
  else .remark (.unimplemented c.pc word) (.done (.unimplemented word, c))

/-- What is done with a fetched word when no trap is pending. -/
def take (c : Cpu) (word : Word) : Dialogue (StepResult × Cpu) :=
  let c := c.clearZero
  let i := Instr.ofWord word
  if c.pendingAnnul then
    .remark (.annuls c.pc i) (.done (.completed, { c with pendingAnnul := false }.advance))
  else .remark (.executes c.pc i) (c.dispatch word i)

/-- One step. The fetch comes first; if it fails, its trap is the pending one. -/
def step (c : Cpu) : Dialogue (StepResult × Cpu) :=
  if c.pc.isAligned then
    .read c.pc fun
      | .ok word =>
        match c.pendingTrap with
        | some t => .done (.trapped (c.report t), c)
        | none => c.take word
      | .error e => .remark (.fetchFailed c.pc e) (c.trapped .instructionAccess)
  else .remark (.misalignedFetch c.pc) (c.trapped .instructionAccess)

end Cpu
end SparcIU
