/-
# The processor state register

The register holds the condition codes, the supervisor bits, the trap enable
bit and the number of the current window. The other bits have no function here
but keep what is written to them, so a register and its word determine each
other (`toBits`, `ofBits`).

Key definitions: `Psr`, `Psr.toBits`, `Psr.ofBits`.
-/
import SparcIU.Condition

namespace SparcIU

/-- The processor state register, field by field from the top. -/
structure Psr where
  /-- Bits 31:24. -/
  version : UInt8
  /-- Bits 23:20. -/
  icc : Icc
  /-- Bits 19:8. -/
  reserved : Fin 4096
  /-- Bit 7, supervisor mode. -/
  s : Bool
  /-- Bit 6, the mode before the last trap. -/
  ps : Bool
  /-- Bit 5, traps enabled. -/
  et : Bool
  /-- Bits 4:0, the current window. -/
  cwp : Fin 32
  deriving DecidableEq, Repr

namespace Psr

/-- Bit `k` of a word, given 2^k. -/
def bit (w : Word) (weight : Nat) : Bool := w.toNat / weight % 2 == 1

/-- The register a word holds. -/
def ofBits (w : Word) : Psr where
  version := (w / 0x1000000).toUInt8
  icc := ⟨bit w 0x800000, bit w 0x400000, bit w 0x200000, bit w 0x100000⟩
  reserved := Fin.ofNat 4096 (w.toNat / 0x100)
  s := bit w 0x80
  ps := bit w 0x40
  et := bit w 0x20
  cwp := Fin.ofNat 32 w.toNat

/-- The word that holds the register. -/
def toBits (p : Psr) : Word :=
  UInt32.ofNat (p.version.toNat * 0x1000000 + p.icc.n.toNat * 0x800000 + p.icc.z.toNat * 0x400000
    + p.icc.v.toNat * 0x200000 + p.icc.c.toNat * 0x100000 + p.reserved.val * 0x100
    + p.s.toNat * 0x80 + p.ps.toNat * 0x40 + p.et.toNat * 0x20 + p.cwp.val)

/-- All bits clear. -/
def zero : Psr := ⟨0, ⟨false, false, false, false⟩, 0, false, false, false, 0⟩

end Psr
end SparcIU
