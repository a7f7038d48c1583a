/-
# Logical registers

An instruction names one of 32 registers: eight globals, and the outs, locals
and ins of the current window. Register 0 always reads as zero.

Key definitions: `Reg`, `Reg.name`, `Reg.saveArea`.
-/
import SparcIU.Word

namespace SparcIU

/-- A logical register number. -/
abbrev Reg := Fin 32

namespace Reg

/-- The register a five-bit field names; higher bits are ignored. -/
def ofNat (n : Nat) : Reg := Fin.ofNat 32 n

/-- The letter of the register's group. -/
def group (r : Reg) : Char :=
  match r.val / 8 with
  | 0 => 'g'
  | 1 => 'o'
  | 2 => 'l'
  | _ => 'i'

/-- The position in the group, as a digit. -/
def digit (r : Reg) : Char := Nat.digitChar (r.val % 8)

/-- The stack pointer, `%o6`. -/
def sp : Reg := 14

/-- The frame pointer, `%i6`. -/
def fp : Reg := 30

/-- The first argument and result register of a callee. -/
def o0 : Reg := 8

/-- Where a call leaves its own address. -/
def o7 : Reg := 15

/-- Where a trap leaves the address of the trapped instruction. -/
def l1 : Reg := 17

/-- Where a trap leaves the address of the instruction after it. -/
def l2 : Reg := 18

/-- The assembler's spelling: `%sp` and `%fp` for the two pointers, else the
group and the position. -/
def name (r : Reg) : String :=
  if r = sp then "%sp" else if r = fp then "%fp" else String.ofList ['%', r.group, r.digit]

/-- The sixteen registers a window spill or fill moves, in the order of the
save area: locals, then ins. -/
def saveArea : List Reg :=
  [16, 17, 18, 19, 20, 21, 22, 23, 24, 25, 26, 27, 28, 29, 30, 31]

end Reg
end SparcIU
