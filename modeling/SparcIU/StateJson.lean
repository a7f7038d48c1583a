/-
# Configurations and processors in JSON

A configuration or a processor is declared as a record with its fields, a trap as
an enumeration with its variants and the status register as a set of flags; what
is written of them and how it is read is the library's. A field of a configuration
that is missing has its default. Of a processor only the pending trap and the
queued target may be missing, and then there is none.

Key definitions: `Configuration.codec`, `TrapKind.codec`, `Psr.flags`, `Cpu.codec`,
`Configuration.parse?`, `Cpu.toJson`.
-/
import SparcIU.Cpu
import SparcIU.Serialization.Standard

namespace SparcIU

/-- Nothing can be written, and nothing is read. -/
def Codec.empty : Codec Empty where
  write e := e.elim
  read _ := none

variable (lib : Serialization)

/-! ### Configurations -/

namespace TrapMode

def labels : List String := ["vectored", "internal"]

def toVariant (m : TrapMode) : Variant labels [] Empty := .unit m.label (by cases m <;> decide)

def ofVariant? : Variant labels [] Empty → Option TrapMode
  | .unit name _ => ofLabel? name

def codec : Codec TrapMode := (lib.enum labels [] .empty).via toVariant ofVariant?

end TrapMode

namespace ByteOrder

def labels : List String := ["big", "little"]

def toVariant (o : ByteOrder) : Variant labels [] Empty := .unit o.label (by cases o <;> decide)

def ofVariant? : Variant labels [] Empty → Option ByteOrder
  | .unit name _ => ofLabel? name

def codec : Codec ByteOrder := (lib.enum labels [] .empty).via toVariant ofVariant?

end ByteOrder

namespace Configuration

def fields : Fields (UInt8 × TrapMode × ByteOrder × Unit) :=
  let missing : Configuration := {}
  .cons "nwindows" lib.byte (some missing.windows) <|
  .cons "trap_mode" (TrapMode.codec lib) (some missing.trapMode) <|
  .cons "endian" (ByteOrder.codec lib) (some missing.order) .nil

def codec : Codec Configuration :=
  (lib.struct true (fields lib)).via (fun c => (c.windows, c.trapMode, c.order, ()))
    fun (windows, trapMode, order, _) => some { windows, trapMode, order }

end Configuration

/-! ### Traps -/

namespace TrapKind

/-- The traps that carry nothing. -/
def labels : List String :=
  ["IllegalInstruction", "PrivilegedInstruction", "WindowOverflow", "WindowUnderflow",
   "DataAccessException", "InstructionAccessException", "DivisionByZero"]

def toVariant : TrapKind → Variant labels ["Software"] UInt8
  | illegalInstruction => .unit "IllegalInstruction" (by decide)
  | privilegedInstruction => .unit "PrivilegedInstruction" (by decide)
  | windowOverflow => .unit "WindowOverflow" (by decide)
  | windowUnderflow => .unit "WindowUnderflow" (by decide)
  | dataAccess => .unit "DataAccessException" (by decide)
  | instructionAccess => .unit "InstructionAccessException" (by decide)
  | divisionByZero => .unit "DivisionByZero" (by decide)
  | software n => .carrying "Software" (by decide) n

def ofVariant? : Variant labels ["Software"] UInt8 → Option TrapKind
  | .unit "IllegalInstruction" _ => some illegalInstruction
  | .unit "PrivilegedInstruction" _ => some privilegedInstruction
  | .unit "WindowOverflow" _ => some windowOverflow
  | .unit "WindowUnderflow" _ => some windowUnderflow
  | .unit "DataAccessException" _ => some dataAccess
  | .unit "InstructionAccessException" _ => some instructionAccess
  | .unit "DivisionByZero" _ => some divisionByZero
  | .unit _ _ => none
  | .carrying _ _ n => some (software n)

def codec : Codec TrapKind := (lib.enum labels ["Software"] lib.byte).via toVariant ofVariant?

end TrapKind

/-! ### Processors -/

namespace Psr

/-- The named bits, from the top; the bits of the window number have one name. -/
def flags : Flags :=
  [("N", 0x800000), ("Z", 0x400000), ("V", 0x200000), ("C", 0x100000),
   ("S", 0x80), ("PS", 0x40), ("ET", 0x20), ("CWP", 0x1f)]

def codec : Codec Psr := (lib.flags flags).via toBits fun w => some (ofBits w)

end Psr

namespace Cpu

def fields : Fields (Word × Word × Array Word × Psr × Word × Word × Word × Option TrapKind × Bool ×
    Option Word × Configuration × Unit) :=
  .cons "pc" lib.word none <|
  .cons "npc" lib.word none <|
  .cons "regs" (lib.array lib.word) none <|
  .cons "psr" (Psr.codec lib) none <|
  .cons "wim" lib.word none <|
  .cons "tbr" lib.word none <|
  .cons "y" lib.word none <|
  .cons "pending_trap" (lib.option (TrapKind.codec lib)) (some none) <|
  .cons "pending_annul" lib.bool none <|
  .cons "branch_target" (lib.option lib.word) (some none) <|
  .cons "cfg" (Configuration.codec lib) none .nil

def codec : Codec Cpu :=
  (lib.struct false (fields lib)).via
    (fun c => (c.pc, c.npc, c.regs, c.psr, c.wim, c.tbr, c.y, c.pendingTrap, c.pendingAnnul,
      c.branchTarget, c.config, ()))
    fun (pc, npc, regs, psr, wim, tbr, y, pendingTrap, pendingAnnul, branchTarget, config, _) =>
      some { pc, npc, regs, psr, wim, tbr, y, pendingTrap, pendingAnnul, branchTarget, config }

end Cpu

/-! ### In the files -/

/-- The configuration a text describes. -/
def Configuration.parse? (s : String) : Option Configuration :=
  Serialization.standard.restore? (Configuration.codec .standard) s

/-- The saved state of a processor. -/
def Cpu.toJson (c : Cpu) : Json := (Cpu.codec .standard).write c

end SparcIU
