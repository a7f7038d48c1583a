/-
# Delivering traps

Every delivery enters supervisor mode with traps disabled, moves down one
window without asking whether it is valid, leaves the two program counters in
locals 1 and 2 of that window and the number of the trap in the trap base
register. A vectored delivery then goes on at the handler. An internal delivery
serves the window traps itself: it spills the window below to its stack, or
fills the window above from its stack, moves the invalid mark, and returns to
the trapped instruction. It refuses all other traps, and then changes nothing.

A spill or fill moves the sixteen locals and ins of a window to or from
consecutive words at its stack pointer. It goes on after a refused access, and
moves nothing if the stack pointer is zero.

Key definitions: `Routine`, `Cpu.enterTrap`, `Cpu.spill`, `Cpu.fill`,
`Cpu.deliver`.
-/
import SparcIU.Execution.Memory

namespace SparcIU

/-- What is done about a trap after it is entered. -/
inductive Routine where
  | vector
  | spill
  | fill
  deriving DecidableEq, Repr

/-- The routine for a trap; none if it is refused. -/
def TrapMode.routine (m : TrapMode) (t : TrapKind) : Option Routine :=
  match m, t with
  | .vectored, _ => some .vector
  | .internal, .windowOverflow => some .spill
  | .internal, .windowUnderflow => some .fill
  | .internal, _ => none

namespace Cpu

/-- Enters the window of a trap. -/
def enterTrap (c : Cpu) (t : TrapKind) : Cpu :=
  let c := { c with psr := { c.psr with ps := c.psr.s, s := true, et := false } }
  let c := c.rotate .down
  let c := (c.set Reg.l1 c.pc).set Reg.l2 c.npc
  { c with tbr := c.tbr - c.tbr % 0x1000 + t.code.toUInt32 * 16 + c.tbr % 16 }

/-- Goes on at the handler. -/
def vector (c : Cpu) : Cpu :=
  let handler := c.tbr - c.tbr % 16
  { c with pc := handler, npc := handler + 4 }

/-! ### Moving the invalid mark -/

/-- The mark one window down; a mark that falls off comes back at the top. -/
def markDown (c : Cpu) : Word :=
  let n := c.config.windows
  let w := (c.wim &&& windowMask n) >>> 1
  if w = 0 then 1 <<< (n.toUInt32 - 1) else w

/-- The mark one window up; a mark that falls off comes back at the bottom. -/
def markUp (c : Cpu) : Word :=
  let mask := windowMask c.config.windows
  let w := ((c.wim &&& mask) <<< 1) &&& mask
  if w = 0 then 1 else w

/-! ### Spilling and filling -/

/-- Writes registers of the current window to consecutive words. -/
def storeWindow (c : Cpu) : Word → List Reg → Dialogue Cpu
  | _, [] => .done c
  | addr, r :: rs => .write addr (c.get r) fun
    | .ok () => storeWindow c (addr + 4) rs
    | .error e => .remark (.spillFailed addr c.cwp e) (storeWindow c (addr + 4) rs)

/-- Reads registers of the current window from consecutive words; a register
whose word is refused keeps its value. -/
def loadWindow (c : Cpu) : Word → List Reg → Dialogue Cpu
  | _, [] => .done c
  | addr, r :: rs => .read addr fun
    | .ok v => loadWindow (c.set r v) (addr + 4) rs
    | .error e => .remark (.fillFailed addr c.cwp e) (loadWindow c (addr + 4) rs)

/-- Spills the window below the current one and returns. -/
def spill (c : Cpu) : Dialogue Cpu :=
  let wim := c.markDown
  let below := c.rotate .down
  let sp := below.get Reg.sp
  let saved := if sp = 0 then .done below else below.storeWindow sp Reg.saveArea
  saved.map fun c => { c.rotate .up with wim }

/-- Fills the window two above the current one and returns. -/
def fill (c : Cpu) : Dialogue Cpu :=
  let wim := c.markUp
  let above := (c.rotate .up).rotate .up
  let sp := above.get Reg.sp
  let loaded :=
    if sp = 0 then .remark (.fillSkipped above.cwp) (.done above)
    else above.loadWindow sp Reg.saveArea
  loaded.map fun c => { (c.rotate .down).rotate .down with wim }

/-! ### Delivery -/

/-- What a routine does in the window of the trap. -/
def serve (c : Cpu) : Routine → Dialogue Cpu
  | .vector => .done c.vector
  | .spill => c.spill.map (·.rotate .up)
  | .fill => c.fill.map (·.rotate .up)

/-- Delivers the pending trap, if there is one. The result is the trap if it is
refused. -/
def deliver (c : Cpu) : Dialogue (Option Trap × Cpu) :=
  match c.pendingTrap with
  | none => .done (none, c)
  | some t =>
    match c.config.trapMode.routine t with
    | none => .done (some (c.report t), c)
    | some routine =>
      .remark (.enters c.pc c.npc c.cwp t)
        (((c.enterTrap t).serve routine).map fun c => (none, { c with pendingTrap := none }))

end Cpu
end SparcIU
