/-
# The processor

The state of the integer unit between two instructions: the program counters,
the register file, the state registers, and what an instruction leaves for the
next step (a pending trap, an annulled slot).

Key definitions: `Cpu`, `Cpu.ofConfiguration`, `Cpu.reset`, `Cpu.raise`.
-/
import SparcIU.StatusRegister
import SparcIU.Trap
import SparcIU.Configuration

namespace SparcIU

structure Cpu where
  pc : Word
  npc : Word
  /-- The globals, then sixteen registers per window. -/
  regs : Array Word
  psr : Psr
  /-- The windows that trap when they are entered, one bit each. -/
  wim : Word
  /-- The trap base address and the number of the last trap. -/
  tbr : Word
  /-- The upper word of products and dividends. -/
  y : Word
  pendingTrap : Option TrapKind
  /-- The next instruction is skipped. -/
  pendingAnnul : Bool
  /-- Where the instruction at hand transfers control to, after its delay slot. -/
  branchTarget : Option Word
  config : Configuration
  deriving DecidableEq, Repr

namespace Cpu

/-- The state after a reset: supervisor mode, traps enabled, window 0 current
and window 1 invalid. -/
def resetState : Psr := { Psr.zero with s := true, et := true }

/-- Starts again at `pc` with all registers zero. -/
def reset (c : Cpu) (pc : Word) : Cpu :=
  { pc, npc := pc + 4, regs := c.regs.map fun _ => 0, psr := resetState, wim := 2, tbr := 0, y := 0,
    pendingTrap := none, pendingAnnul := false, branchTarget := none, config := c.config }

/-- A fresh processor, if the configuration is valid. -/
def ofConfiguration (config : Configuration) : Except ConfigurationError Cpu :=
  match config.validate with
  | .error e => .error e
  | .ok () => .ok
    { pc := 0, npc := 4, regs := Array.replicate config.registerCount 0, psr := resetState,
      wim := 2, tbr := 0, y := 0, pendingTrap := none, pendingAnnul := false,
      branchTarget := none, config }

/-- Leaves a trap pending. -/
def raise (c : Cpu) (t : TrapKind) : Cpu := { c with pendingTrap := some t }

/-- A trap of the given kind at the instruction at hand. -/
def report (c : Cpu) (t : TrapKind) : Trap := ⟨t, c.pc, c.npc⟩

/-- Replaces the condition codes. -/
def setIcc (c : Cpu) (f : Icc) : Cpu := { c with psr := { c.psr with icc := f } }

/-- Register 0 of the file, forced to its fixed value. -/
def clearZero (c : Cpu) : Cpu := { c with regs := c.regs.setIfInBounds 0 0 }

end Cpu
end SparcIU
