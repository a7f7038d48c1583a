/-
# State records

A processor is saved as a row of words: the two program counters, the register
file, the four state registers, the number of the pending trap (0 for none),
the annul flag, and the queued target (all ones for none). A record may end
early; what it leaves out keeps its value. A record is checked as a whole: if
any part of it is refused, nothing changes.

Key definitions: `Cpu.recordLength`, `Cpu.toRecord`, `Cpu.overlay`,
`Cpu.loadRecord`.
-/
import SparcIU.Cpu.Window

namespace SparcIU

/-- Why a record is refused. -/
inductive RecordError where
  | empty
  | misaligned (length : Nat)
  | tooLong (length most : Nat)
  | badWindow (window count : Nat)
  | unknownTrap (code : Word)
  deriving DecidableEq, Repr

def RecordError.message : RecordError → String
  | empty => "state dump is empty"
  | misaligned n => "state dump length " ++ n.repr ++ " is not a whole number of words"
  | tooLong n most => "state dump of " ++ n.repr ++ " bytes exceeds the " ++ most.repr
      ++ "-byte record"
  | badWindow w n => "CWP " ++ w.repr ++ " in dumped PSR is not below the window count " ++ n.repr
  | unknownTrap code => "unknown pending trap code " ++ Numeral.hex code.toNat

/-- The word for no queued target. -/
def noTarget : Word := 0xffffffff

namespace Cpu

/-- The length of a complete record in bytes. -/
def recordLength (c : Cpu) : Nat := 4 * (2 + c.regs.size + 7)

/-! ### Writing -/

/-- The words of the complete record. -/
def recordWords (c : Cpu) : List Word :=
  c.pc :: c.npc :: c.regs.toList ++
    [c.psr.toBits, c.wim, c.tbr, c.y,
     match c.pendingTrap with
     | none => 0
     | some t => t.code.toUInt32,
     if c.pendingAnnul then 1 else 0,
     c.branchTarget.getD noTarget]

/-- The complete record as bytes. -/
def toRecord (c : Cpu) (order : ByteOrder) : ByteArray :=
  (c.recordWords.flatMap order.bytes).toByteArray

/-! ### Reading -/

/-- A part of the record: how its word changes the processor. -/
abbrev RecordField := Cpu → Word → Except RecordError Cpu

def psrField : RecordField := fun c w =>
  let psr := Psr.ofBits w
  if psr.cwp.val < c.config.windows.toNat then .ok { c with psr }
  else .error (.badWindow psr.cwp.val c.config.windows.toNat)

def trapField : RecordField := fun c w =>
  if w = 0 then .ok { c with pendingTrap := none }
  else if 0x100 ≤ w then .error (.unknownTrap w)
  else match TrapKind.ofCode w.toUInt8 with
    | none => .error (.unknownTrap w)
    | some t => .ok { c with pendingTrap := some t }

/-- The fields of the record in their order. -/
def recordFields (registers : Nat) : List RecordField :=
  (fun c w => .ok { c with pc := w }) :: (fun c w => .ok { c with npc := w }) ::
    ((List.range registers).map fun i => fun c w =>
      .ok { c with regs := c.regs.setIfInBounds i w }) ++
    [psrField,
     fun c w => .ok { c with wim := w },
     fun c w => .ok { c with tbr := w },
     fun c w => .ok { c with y := w },
     trapField,
     fun c w => .ok { c with pendingAnnul := w != 0 },
     fun c w => .ok { c with branchTarget := if w = noTarget then none else some w }]

/-- The processor with the given words laid over its fields, as far as they
reach. -/
def overlay : List RecordField → List Word → Cpu → Except RecordError Cpu
  | field :: fields, w :: ws, c =>
    match field c w with
    | .error e => .error e
    | .ok c => overlay fields ws c
  | _, _, c => .ok c

/-- The words stored in a row of bytes. -/
def wordsOf (order : ByteOrder) : List UInt8 → List Word
  | a :: b :: c :: d :: rest => order.word a b c d :: wordsOf order rest
  | _ => []

/-- The processor with a record laid over it. -/
def loadRecord (c : Cpu) (bytes : ByteArray) (order : ByteOrder) : Except RecordError Cpu :=
  if bytes.size = 0 then .error .empty
  else if bytes.size % 4 ≠ 0 then .error (.misaligned bytes.size)
  else if c.recordLength < bytes.size then .error (.tooLong bytes.size c.recordLength)
  else
    match overlay (recordFields c.regs.size) (wordsOf order bytes.data.toList) c with
    | .error e => .error e
    | .ok c => .ok c.clearZero

end Cpu
end SparcIU
