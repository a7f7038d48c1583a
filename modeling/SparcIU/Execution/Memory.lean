/-
# Loads and stores

The bus moves aligned words only. A load of a byte or a half reads the word
around it and picks its part; a store of a byte or a half reads that word,
replaces the part and writes the word back. Within a word the byte at the
lowest address is the most significant. An access that is misaligned or refused
raises a data access trap; what the instruction did before it stays done.

Key definitions: `Cpu.readWord`, `Cpu.writeWord`, `Cpu.load`, `Cpu.store`.
-/
import SparcIU.Execution.Local
import SparcIU.Dialogue

namespace SparcIU
namespace Cpu

/-- Reads a word and goes on with it. -/
def readWord (c : Cpu) (addr : Word) (next : Cpu → Word → Dialogue Cpu) : Dialogue Cpu :=
  if addr.isAligned then
    .read addr fun
      | .ok w => next c w
      | .error e => .remark (.loadFailed addr e) (.done (c.raise .dataAccess))
  else .remark (.misalignedLoad addr) (.done (c.raise .dataAccess))

/-- Writes a word and goes on. -/
def writeWord (c : Cpu) (addr v : Word) (next : Cpu → Dialogue Cpu) : Dialogue Cpu :=
  if addr.isAligned then
    .write addr v fun
      | .ok () => next c
      | .error e => .remark (.storeFailed addr e) (.done (c.raise .dataAccess))
  else .remark (.misalignedStore addr) (.done (c.raise .dataAccess))

/-- The even register of the pair that `r` belongs to. -/
def evenOf (r : Reg) : Reg := Reg.ofNat (r.val / 2 * 2)

/-- The odd register of the pair that `r` belongs to. -/
def oddOf (r : Reg) : Reg := Reg.ofNat (r.val / 2 * 2 + 1)

/-- The half at an address: the upper one at the start of a word, the lower one
anywhere else. -/
def isUpperHalf (addr : Word) : Bool := addr.isAligned

def load (c : Cpu) (kind : LoadKind) (addr : Word) (rd : Reg) : Dialogue Cpu :=
  match kind with
  | .word => c.readWord addr fun c w => .done (c.set rd w)
  | .unsignedByte => c.readWord addr.alignDown fun c w =>
      .done (c.set rd (w.byte addr.lane).toUInt32)
  | .signedByte => c.readWord addr.alignDown fun c w =>
      .done (c.set rd (Word.signExtend 8 (w.byte addr.lane).toUInt32))
  | .unsignedHalf => c.readWord addr.alignDown fun c w =>
      .done (c.set rd (w.half (isUpperHalf addr)).toUInt32)
  | .signedHalf => c.readWord addr.alignDown fun c w =>
      .done (c.set rd (Word.signExtend 16 (w.half (isUpperHalf addr)).toUInt32))
  | .double => c.readWord addr fun c high =>
      (c.set (evenOf rd) high).readWord (addr + 4) fun c low => .done (c.set (oddOf rd) low)
  | .testAndSet => c.readWord addr.alignDown fun c w =>
      (c.set rd (w.byte addr.lane).toUInt32).writeWord addr.alignDown
        (w.setByte addr.lane 0xff) .done

def store (c : Cpu) (kind : StoreKind) (addr : Word) (rd : Reg) : Dialogue Cpu :=
  match kind with
  | .word => c.writeWord addr (c.get rd) .done
  | .byte => c.readWord addr.alignDown fun c w =>
      c.writeWord addr.alignDown (w.setByte addr.lane (c.get rd).toUInt8) .done
  | .half => c.readWord addr.alignDown fun c w =>
      c.writeWord addr.alignDown (w.setHalf (isUpperHalf addr) (c.get rd).toUInt16) .done
  | .double => c.writeWord addr (c.get (evenOf rd)) fun c =>
      c.writeWord (addr + 4) (c.get (oddOf rd)) .done

/-- The dialogue of an instruction. -/
def execute (c : Cpu) : Instr → Dialogue Cpu
  | .load kind _ rs1 src rd => c.load kind (c.sum rs1 src) rd
  | .store kind rd rs1 src => c.store kind (c.sum rs1 src) rd
  | i => .done (c.operate i)

end Cpu
end SparcIU
