/-
# Assembly text

An instruction is written as a mnemonic and operands separated by commas. The
usual short forms stand for the instructions they abbreviate: `nop`, `mov`,
`cmp`, `ret`, `retl` and a bare `restore`. How the target of a branch or a call
is written is left to the caller: as a distance, or as an address.

Key definitions: `Assembly`, `Instr.assembly`, `Instr.relativeText`,
`Instr.textAt`.
-/
import SparcIU.Instruction
import SparcIU.Text.Numeral

namespace SparcIU

/-- A line of assembly. -/
structure Assembly where
  mnemonic : String
  operands : List String
  deriving DecidableEq, Repr

/-- The line as text: no blank follows a mnemonic without operands. -/
def Assembly.text (a : Assembly) : String :=
  match a.operands with
  | [] => a.mnemonic
  | ops => a.mnemonic ++ " " ++ String.intercalate ", " ops

/-- A signed decimal number. -/
def Word.signedText (w : Word) : String :=
  if 0x80000000 ≤ w then "-" ++ (-w).toNat.repr else w.toNat.repr

/-- A register name or a signed immediate. -/
def Operand.text : Operand → String
  | .reg r => r.name
  | .imm v => v.signedText

/-- A sum of a register and an operand; a second operand that adds nothing is
left out. -/
def Operand.sumText (rs1 : Reg) : Operand → String
  | .reg r => if r = 0 then rs1.name else rs1.name ++ " + " ++ r.name
  | .imm v =>
    if v = 0 then rs1.name
    else if 0x80000000 ≤ v then rs1.name ++ " - " ++ (-v).toNat.repr
    else rs1.name ++ " + " ++ v.toNat.repr

/-- A sum in brackets: the operand of a load or a store. -/
def Operand.addressText (rs1 : Reg) (src : Operand) : String := "[" ++ src.sumText rs1 ++ "]"

def AluOp.mnemonic : AluOp → String
  | add => "add"
  | and => "and"
  | or => "or"
  | xor => "xor"
  | sub => "sub"
  | andn => "andn"
  | orn => "orn"

def ShiftOp.mnemonic : ShiftOp → String
  | sll => "sll"
  | srl => "srl"
  | sra => "sra"

def StateReg.name : StateReg → String
  | y => "%y"
  | psr => "%psr"
  | wim => "%wim"
  | tbr => "%tbr"

def LoadKind.mnemonic : LoadKind → String
  | word => "ld"
  | unsignedByte => "ldub"
  | unsignedHalf => "lduh"
  | double => "ldd"
  | signedByte => "ldsb"
  | signedHalf => "ldsh"
  | testAndSet => "ldstub"

def StoreKind.mnemonic : StoreKind → String
  | word => "st"
  | byte => "stb"
  | half => "sth"
  | double => "std"

namespace Instr

/-- The mnemonic of a multiplication or division. -/
def signedMnemonic (signed setsIcc : Bool) (root : String) : String :=
  (if signed then "s" else "u") ++ root ++ (if setsIcc then "cc" else "")

/-- The line for an instruction; `target` writes the distance to a target. -/
def assembly (target : Word → String) : Instr → Assembly
  | nop => ⟨"nop", []⟩
  | sethi v rd =>
    if rd = 0 ∧ v = 0 then ⟨"nop", []⟩ else ⟨"sethi", ["%hi(" ++ Numeral.hex v.toNat ++ ")", rd.name]⟩
  | branch cond annul offset =>
    ⟨"b" ++ cond.mnemonic ++ (if annul then ",a" else ""), [target offset]⟩
  | call offset => ⟨"call", [target offset]⟩
  | alu .or false 0 src rd => ⟨"mov", [src.text, rd.name]⟩
  | alu .sub true rs1 src 0 => ⟨"cmp", [rs1.name, src.text]⟩
  | alu op setsIcc rs1 src rd =>
    ⟨op.mnemonic ++ (if setsIcc then "cc" else ""), [rs1.name, src.text, rd.name]⟩
  | shift op rs1 src rd => ⟨op.mnemonic, [rs1.name, src.text, rd.name]⟩
  | mul signed setsIcc rs1 src rd =>
    ⟨signedMnemonic signed setsIcc "mul", [rs1.name, src.text, rd.name]⟩
  | div signed setsIcc rs1 src rd =>
    ⟨signedMnemonic signed setsIcc "div", [rs1.name, src.text, rd.name]⟩
  | mulscc rs1 src rd => ⟨"mulscc", [rs1.name, src.text, rd.name]⟩
  | readState state rd => ⟨"rd", [state.name, rd.name]⟩
  | writeState rs1 src state => ⟨"wr", [rs1.name, src.text, state.name]⟩
  | jmpl 31 (.imm 8) 0 => ⟨"ret", []⟩
  | jmpl 15 (.imm 8) 0 => ⟨"retl", []⟩
  | jmpl rs1 src rd => ⟨"jmpl", [src.sumText rs1, rd.name]⟩
  | rett rs1 src => ⟨"rett", [src.sumText rs1]⟩
  | trapIf cond rs1 src =>
    ⟨"t" ++ cond.mnemonic, [if rs1 = 0 then src.text else rs1.name ++ " + " ++ src.text]⟩
  | save rs1 src rd => ⟨"save", [rs1.name, src.text, rd.name]⟩
  | restore 0 (.reg 0) 0 => ⟨"restore", []⟩
  | restore rs1 src rd => ⟨"restore", [rs1.name, src.text, rd.name]⟩
  | load kind _ rs1 src rd => ⟨kind.mnemonic, [src.addressText rs1, rd.name]⟩
  | store kind rd rs1 src => ⟨kind.mnemonic, [rd.name, src.addressText rs1]⟩
  | unknown w => ⟨".word", [Numeral.hexPadded 8 w.toNat]⟩

/-- A distance in hexadecimal, always with its sign. -/
def distance (offset : Word) : String :=
  if 0x80000000 ≤ offset then "-" ++ Numeral.hex (-offset).toNat else "+" ++ Numeral.hex offset.toNat

/-- The text with targets as distances. -/
def relativeText (i : Instr) : String := (i.assembly distance).text

/-- The text of the instruction at `pc`, with targets as addresses. -/
def textAt (i : Instr) (pc : Word) : String :=
  (i.assembly fun offset => Numeral.hex (pc + offset).toNat).text

end Instr
end SparcIU
