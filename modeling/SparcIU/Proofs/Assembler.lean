/-
# Instructions read back from their lines

The other way round from the disassembler: a reader of lines. The first blank ends
the mnemonic, commas stand between the operands, and the mnemonic says how they are
to be read. The reader gives back every instruction in its plain form
(`Instr.ofText?_text`): what does nothing is a `nop`, a sum with `%g0` is one with
the number 0, and the address space of a load is not in its text. So two
instructions with one text have one plain form.

How the target of a branch or a call is read is left to the caller, as the way it is
written is to the disassembler.

Key definitions: `Instr.plain`, `Opcode`, `Opcode.instr?`, `Assembly.ofText`,
`Instr.ofText?`.
Key theorems: `Opcode.ofMnemonic?_mnemonic`, `Assembly.instr?_assembly`,
`Assembly.ofText_text`, `Instr.ofText?_text`.
-/
import SparcIU.Instruction.Assembly
import SparcIU.Proofs.Numerals

namespace SparcIU

/-! ### Plain forms -/

/-- Adding `%g0` is adding 0. -/
def Operand.plain : Operand → Operand
  | reg r => if r = 0 then imm 0 else reg r
  | imm v => imm v

/-- The form an instruction has when it is read back from its text. -/
def Instr.plain : Instr → Instr
  | sethi v rd => if rd = 0 ∧ v = 0 then nop else sethi v rd
  | jmpl rs1 src rd => jmpl rs1 src.plain rd
  | rett rs1 src => rett rs1 src.plain
  | load kind _ rs1 src rd => load kind false rs1 src.plain rd
  | store kind rd rs1 src => store kind rd rs1 src.plain
  | i => i

/-! ### Finding by name -/

/-- In a row with different names, an entry is found by its name. -/
theorem find?_name {α : Type} {name : α → String} {l : List α} (hl : (l.map name).Nodup) {a : α}
    (ha : a ∈ l) : (l.find? fun x => name x == name a) = some a := by
  induction l with
  | nil => cases ha
  | cons b l ih =>
    rw [List.map_cons, List.nodup_cons] at hl
    rcases List.mem_cons.mp ha with rfl | hmem
    · exact List.find?_cons_of_pos (beq_self_eq_true _)
    · have hne : name b ≠ name a := fun h => hl.1 (h ▸ List.mem_map_of_mem hmem)
      rw [List.find?_cons_of_neg (by simpa using hne)]
      exact ih hl.2 hmem

/-- The register with a name. -/
def Reg.ofName? (s : String) : Option Reg := (List.finRange 32).find? fun r => r.name == s

@[simp] theorem Reg.ofName?_name (r : Reg) : ofName? r.name = some r :=
  find?_name (by decide +kernel) (List.mem_finRange r)

def StateReg.all : List StateReg := [y, psr, wim, tbr]

def StateReg.ofName? (s : String) : Option StateReg := all.find? fun r => r.name == s

@[simp] theorem StateReg.ofName?_name (r : StateReg) : ofName? r.name = some r :=
  find?_name (by decide) (by cases r <;> decide)

/-! ### Mnemonics -/

/-- What a mnemonic stands for. -/
inductive Opcode where
  | nop
  | sethi
  | branch (cond : Cond) (annul : Bool)
  | call
  | mov
  | cmp
  | alu (op : AluOp) (setsIcc : Bool)
  | shift (op : ShiftOp)
  | mul (signed setsIcc : Bool)
  | div (signed setsIcc : Bool)
  | mulscc
  | readState
  | writeState
  | jmpl
  | ret
  | retl
  | rett
  | trapIf (cond : Cond)
  | save
  | restore
  | load (kind : LoadKind)
  | store (kind : StoreKind)
  | data
  deriving DecidableEq, Repr

namespace Opcode

def mnemonic : Opcode → String
  | nop => "nop"
  | sethi => "sethi"
  | branch cond annul => "b" ++ cond.mnemonic ++ (if annul then ",a" else "")
  | call => "call"
  | mov => "mov"
  | cmp => "cmp"
  | alu op setsIcc => op.mnemonic ++ (if setsIcc then "cc" else "")
  | shift op => op.mnemonic
  | mul signed setsIcc => Instr.signedMnemonic signed setsIcc "mul"
  | div signed setsIcc => Instr.signedMnemonic signed setsIcc "div"
  | mulscc => "mulscc"
  | readState => "rd"
  | writeState => "wr"
  | jmpl => "jmpl"
  | ret => "ret"
  | retl => "retl"
  | rett => "rett"
  | trapIf cond => "t" ++ cond.mnemonic
  | save => "save"
  | restore => "restore"
  | load kind => kind.mnemonic
  | store kind => kind.mnemonic
  | data => ".word"

/-- All opcodes, family by family. -/
def all : List Opcode :=
  let flags := [false, true]
  let conds := (List.range 16).map Cond.ofField
  [nop, sethi, call, mov, cmp, mulscc, readState, writeState, jmpl, ret, retl, rett, save, restore,
    data]
    ++ conds.flatMap (fun cond => [branch cond false, branch cond true, trapIf cond])
    ++ [AluOp.add, .and, .or, .xor, .sub, .andn, .orn].flatMap (fun op => flags.map (alu op))
    ++ flags.flatMap (fun signed => flags.flatMap fun setsIcc =>
      [mul signed setsIcc, div signed setsIcc])
    ++ [ShiftOp.sll, .srl, .sra].map shift
    ++ [LoadKind.word, .unsignedByte, .unsignedHalf, .double, .signedByte, .signedHalf,
      .testAndSet].map load
    ++ [StoreKind.word, .byte, .half, .double].map store

/-- The opcode with a mnemonic. -/
def ofMnemonic? (s : String) : Option Opcode := all.find? fun o => o.mnemonic == s

theorem mem_all (o : Opcode) : o ∈ all := by
  cases o with
  | branch cond annul => cases cond <;> cases annul <;> decide
  | trapIf cond => cases cond <;> decide
  | alu op setsIcc => cases op <;> cases setsIcc <;> decide
  | mul signed setsIcc | div signed setsIcc => cases signed <;> cases setsIcc <;> decide
  | shift op => cases op <;> decide
  | load kind => cases kind <;> decide
  | store kind => cases kind <;> decide
  | _ => decide

/-- No two opcodes have one mnemonic. -/
@[simp] theorem ofMnemonic?_mnemonic (o : Opcode) : ofMnemonic? o.mnemonic = some o :=
  find?_name (by decide +kernel) (mem_all o)

end Opcode

/-! ### Characters that a text is free of -/

/-- The digits of a number are free of what is no digit. -/
theorem notMem_toDigits {ch : Char} (h : ∀ d : Nat, d.digitChar ≠ ch) {b : Nat} (hb : 2 ≤ b)
    (n : Nat) : ch ∉ Nat.toDigits b n := by
  intro hmem
  obtain ⟨d, -, hd⟩ := Numeral.mem_toDigits hb hmem
  exact h d hd.symm

theorem digitChar_ne_blank (d : Nat) : d.digitChar ≠ ' ' := Nat.digitChar_ne ' ' (by decide)
theorem digitChar_ne_comma (d : Nat) : d.digitChar ≠ ',' := Nat.digitChar_ne ',' (by decide)
theorem digitChar_ne_minus (d : Nat) : d.digitChar ≠ '-' := Nat.digitChar_ne '-' (by decide)
theorem digitChar_ne_percent (d : Nat) : d.digitChar ≠ '%' := Nat.digitChar_ne '%' (by decide)

theorem Reg.blank_notMem_name (r : Reg) : ' ' ∉ r.name.toList := by revert r; decide +kernel
theorem Reg.head?_name (r : Reg) : r.name.toList.head? = some '%' := by revert r; decide +kernel

/-- A character that stands in no operand: in no name, no number and no sum. -/
structure Foreign (ch : Char) : Prop where
  name : ∀ r : Reg, ch ∉ r.name.toList
  state : ∀ r : StateReg, ch ∉ r.name.toList
  digit : ∀ d : Nat, d.digitChar ≠ ch
  sign : ch ∉ ['%', 'h', 'i', '(', ')', '[', ']', ' ', '+', '-', '0', 'x']

theorem foreign_newline : Foreign '\n' where
  name := by decide +kernel
  state := by rintro ⟨⟩ <;> decide
  digit _ := Nat.digitChar_ne '\n' (by decide)
  sign := by decide

theorem foreign_comma : Foreign ',' where
  name := by decide +kernel
  state := by rintro ⟨⟩ <;> decide
  digit := digitChar_ne_comma
  sign := by decide

/-! ### Numbers -/

/-- The word that a row of digits stands for. -/
def Word.ofDigits? (base : Nat) (cs : List Char) : Option Word :=
  (Numeral.readNat base 0x100000000 cs).toOption.map UInt32.ofNat

theorem Word.ofDigits?_padded {base : Nat} (h2 : 2 ≤ base) (h16 : base ≤ 16) (w : Word) (k : Nat) :
    ofDigits? base (List.replicate k '0' ++ Nat.toDigits base w.toNat) = some w := by
  unfold ofDigits?
  rw [Numeral.readNat_padded h2 h16 w.toNat_lt]
  exact congrArg some UInt32.ofNat_toNat

@[simp] theorem Word.ofDigits?_toDigits_ten (w : Word) :
    ofDigits? 10 (Nat.toDigits 10 w.toNat) = some w :=
  ofDigits?_padded (by decide) (by decide) w 0

@[simp] theorem Word.ofDigits?_toDigits_sixteen (w : Word) :
    ofDigits? 16 (Nat.toDigits 16 w.toNat) = some w :=
  ofDigits?_padded (by decide) (by decide) w 0

/-- The word of a signed decimal number. -/
def Word.ofSigned? : List Char → Option Word
  | '-' :: cs => (ofDigits? 10 cs).map (- ·)
  | cs => ofDigits? 10 cs

/-- The word of a hexadecimal number. -/
def Word.ofHex? : List Char → Option Word
  | '0' :: 'x' :: cs => ofDigits? 16 cs
  | _ => none

/-- The word of a hexadecimal number with its sign. -/
def Word.ofDistance? : List Char → Option Word
  | '-' :: cs => (ofHex? cs).map (- ·)
  | '+' :: cs => ofHex? cs
  | _ => none

theorem Word.toList_hex (n : Nat) : (Numeral.hex n).toList = '0' :: 'x' :: Nat.toDigits 16 n := by
  simp [Numeral.hex, Numeral.hexDigits]

@[simp] theorem Word.ofHex?_hex (w : Word) : ofHex? (Numeral.hex w.toNat).toList = some w := by
  rw [toList_hex]
  exact ofDigits?_toDigits_sixteen w

/-- The distance from `pc` to an address. -/
def Word.ofTarget? (pc : Word) (cs : List Char) : Option Word := (ofHex? cs).map (· - pc)

@[simp] theorem Word.ofTarget?_hex (pc w : Word) :
    ofTarget? pc (Numeral.hex (pc + w).toNat).toList = some w := by
  rw [ofTarget?, ofHex?_hex, Option.map_some, UInt32.add_comm, UInt32.add_sub_cancel]

@[simp] theorem Word.ofHex?_hexPadded (w : Word) :
    ofHex? (Numeral.hexPadded 8 w.toNat).toList = some w := by
  have hlist : (Numeral.hexPadded 8 w.toNat).toList = '0' :: 'x' ::
      (List.replicate (8 - (Nat.toDigits 16 w.toNat).length) '0' ++ Nat.toDigits 16 w.toNat) := by
    simp [Numeral.hexPadded, Numeral.paddedDigits]
  rw [hlist]
  exact ofDigits?_padded (by decide) (by decide) w _

@[simp] theorem Word.ofDistance?_distance (w : Word) :
    ofDistance? (Instr.distance w).toList = some w := by
  unfold Instr.distance
  split
  · rw [String.toList_append]
    show (ofHex? (Numeral.hex (-w).toNat).toList).map (- ·) = some w
    rw [ofHex?_hex, Option.map_some, UInt32.neg_neg]
  · rw [String.toList_append]
    exact ofHex?_hex w

theorem Word.ofSigned?_digits (w : Word) : ofSigned? (Nat.toDigits 10 w.toNat) = some w := by
  unfold ofSigned?
  split
  · rename_i cs hcs
    have hmem : '-' ∈ Nat.toDigits 10 w.toNat := hcs ▸ List.mem_cons_self
    exact absurd hmem (notMem_toDigits digitChar_ne_minus (by decide) _)
  · exact ofDigits?_toDigits_ten w

@[simp] theorem Word.ofSigned?_signedText (w : Word) : ofSigned? w.signedText.toList = some w := by
  unfold signedText
  split
  · rw [String.toList_append, Nat.toList_repr]
    show (ofDigits? 10 (Nat.toDigits 10 (-w).toNat)).map (- ·) = some w
    rw [ofDigits?_toDigits_ten, Option.map_some, UInt32.neg_neg]
  · rw [Nat.toList_repr]
    exact ofSigned?_digits w

/-! ### Operands -/

/-- Parts without blanks are found between the blanks. -/
theorem splitOn_blank {l : List (List Char)} (h : ∀ p ∈ l, ' ' ∉ p) (hne : l ≠ []) :
    ([' '].intercalate l).splitOn ' ' = l := List.splitOn_intercalate ' ' h hne

namespace Operand

/-- A register or a signed number. -/
def ofText? (cs : List Char) : Option Operand :=
  if cs.head? = some '%' then (Reg.ofName? (String.ofList cs)).map reg
  else (Word.ofSigned? cs).map imm

/-- A register, or a sum of a register and an operand. -/
def ofSum? (cs : List Char) : Option (Reg × Operand) :=
  match cs.splitOn ' ' with
  | [r] => (Reg.ofName? (String.ofList r)).map fun rs1 => (rs1, imm 0)
  | [r, ['+'], x] => do return (← Reg.ofName? (String.ofList r), ← ofText? x)
  | [r, ['-'], x] => do return (← Reg.ofName? (String.ofList r), imm (- (← Word.ofDigits? 10 x)))
  | _ => none

/-- An operand alone, or a sum of a register and an operand. -/
def ofTrapNumber? (cs : List Char) : Option (Reg × Operand) :=
  match cs.splitOn ' ' with
  | [x] => (ofText? x).map fun src => (0, src)
  | [r, ['+'], x] => do return (← Reg.ofName? (String.ofList r), ← ofText? x)
  | _ => none

/-- A sum in brackets. -/
def ofAddress? : List Char → Option (Reg × Operand)
  | '[' :: cs => ofSum? cs.dropLast
  | _ => none

theorem signedText_head (w : Word) : w.signedText.toList.head? ≠ some '%' := by
  unfold Word.signedText
  split
  · rw [String.toList_append]
    exact fun h => by cases h
  · rw [Nat.toList_repr]
    intro h
    exact notMem_toDigits digitChar_ne_percent (by decide) _ (List.mem_of_mem_head? h)

@[simp] theorem ofText?_text (src : Operand) : ofText? src.text.toList = some src := by
  unfold ofText?
  cases src with
  | reg r =>
    rw [text, if_pos r.head?_name, String.ofList_toList, Reg.ofName?_name]
    rfl
  | imm v =>
    rw [text, if_neg (signedText_head v), Word.ofSigned?_signedText]
    rfl

theorem blank_notMem_text (src : Operand) : ' ' ∉ src.text.toList := by
  cases src with
  | reg r => exact r.blank_notMem_name
  | imm v =>
    have hdigits := notMem_toDigits digitChar_ne_blank (b := 10) (by decide)
    rw [text, Word.signedText]
    split <;> simp [hdigits]

/-- The parts of a sum of a register and an operand. -/
theorem splitOn_sum (rs1 : Reg) (src : Operand) :
    (rs1.name ++ " + " ++ src.text).toList.splitOn ' ' =
      [rs1.name.toList, ['+'], src.text.toList] := by
  have hparts : ∀ p ∈ [rs1.name.toList, ['+'], src.text.toList], ' ' ∉ p := by
    simp [rs1.blank_notMem_name, src.blank_notMem_text]
  have hsplit := splitOn_blank hparts (by simp)
  simpa using hsplit

theorem splitOn_name (rs1 : Reg) : rs1.name.toList.splitOn ' ' = [rs1.name.toList] := by
  have hsplit := splitOn_blank (l := [rs1.name.toList]) (by simp [rs1.blank_notMem_name]) (by simp)
  simpa using hsplit

theorem ofSum?_name (rs1 : Reg) : ofSum? rs1.name.toList = some (rs1, imm 0) := by
  unfold ofSum?
  rw [splitOn_name]
  simp

theorem ofSum?_plus (rs1 : Reg) (src : Operand) :
    ofSum? (rs1.name ++ " + " ++ src.text).toList = some (rs1, src) := by
  unfold ofSum?
  rw [splitOn_sum]
  simp

theorem ofSum?_minus (rs1 : Reg) (n : Word) :
    ofSum? (rs1.name ++ " - " ++ n.toNat.repr).toList = some (rs1, imm (-n)) := by
  have hdigits := notMem_toDigits digitChar_ne_blank (b := 10) (by decide) n.toNat
  have hparts : ∀ p ∈ [rs1.name.toList, ['-'], n.toNat.repr.toList], ' ' ∉ p := by
    simp [rs1.blank_notMem_name, hdigits]
  have hsplit := splitOn_blank hparts (by simp)
  have hlist : (rs1.name ++ " - " ++ n.toNat.repr).toList =
      [' '].intercalate [rs1.name.toList, ['-'], n.toNat.repr.toList] := by simp
  unfold ofSum?
  rw [hlist, hsplit, Nat.toList_repr]
  simp

/-- **A sum is read back**, its second operand in plain form. -/
@[simp] theorem ofSum?_sumText (rs1 : Reg) (src : Operand) :
    ofSum? (src.sumText rs1).toList = some (rs1, src.plain) := by
  cases src with
  | reg r =>
    unfold sumText plain
    by_cases hr : r = 0
    · simp only [if_pos hr]
      exact ofSum?_name rs1
    · simp only [if_neg hr]
      exact ofSum?_plus rs1 (reg r)
  | imm v =>
    unfold sumText plain
    by_cases hv : v = 0
    · simp only [hv]
      exact ofSum?_name rs1
    · by_cases hneg : 0x80000000 ≤ v
      · simp only [if_neg hv, if_pos hneg]
        rw [ofSum?_minus, UInt32.neg_neg]
      · have htext : v.toNat.repr = (imm v).text := by
          rw [text, Word.signedText, if_neg hneg]
        simp only [if_neg hv, if_neg hneg, htext]
        exact ofSum?_plus rs1 (imm v)

@[simp] theorem ofAddress?_addressText (rs1 : Reg) (src : Operand) :
    ofAddress? (src.addressText rs1).toList = some (rs1, src.plain) := by
  have hlist : (src.addressText rs1).toList = '[' :: ((src.sumText rs1).toList ++ [']']) := by
    simp [addressText]
  rw [hlist, ofAddress?, List.dropLast_concat, ofSum?_sumText]

@[simp] theorem ofTrapNumber?_text (rs1 : Reg) (src : Operand) :
    ofTrapNumber? (if rs1 = 0 then src.text else rs1.name ++ " + " ++ src.text).toList =
      some (rs1, src) := by
  unfold ofTrapNumber?
  by_cases h0 : rs1 = 0
  · have hsplit : src.text.toList.splitOn ' ' = [src.text.toList] := by
      have h := splitOn_blank (l := [src.text.toList]) (by simp [src.blank_notMem_text]) (by simp)
      simpa using h
    rw [if_pos h0, hsplit]
    simp [h0]
  · rw [if_neg h0, splitOn_sum]
    simp

end Operand

/-! ### Lines -/

/-- The upper bits that `sethi` sets. -/
def Word.ofHigh? : List Char → Option Word
  | '%' :: 'h' :: 'i' :: '(' :: cs => ofHex? cs.dropLast
  | _ => none

@[simp] theorem Word.ofHigh?_hex (w : Word) :
    ofHigh? ("%hi(" ++ Numeral.hex w.toNat ++ ")").toList = some w := by
  have hlist : ("%hi(" ++ Numeral.hex w.toNat ++ ")").toList =
      '%' :: 'h' :: 'i' :: '(' :: ((Numeral.hex w.toNat).toList ++ [')']) := by simp
  rw [hlist, ofHigh?, List.dropLast_concat, ofHex?_hex]

namespace Opcode

/-- The three operands of an arithmetic instruction. -/
def three? (make : Reg → Operand → Reg → Instr) : List String → Option Instr
  | [rs1, src, rd] => do
    return make (← Reg.ofName? rs1) (← Operand.ofText? src.toList) (← Reg.ofName? rd)
  | _ => none

theorem three?_texts (make : Reg → Operand → Reg → Instr) (rs1 : Reg) (src : Operand) (rd : Reg) :
    three? make [rs1.name, src.text, rd.name] = some (make rs1 src rd) := by
  simp [three?]

/-- The instruction of an opcode with the texts of its operands; `target` reads the
distance to a target. -/
def instr? (target : List Char → Option Word) : Opcode → List String → Option Instr
  | nop, [] => some .nop
  | sethi, [v, rd] => do return .sethi (← Word.ofHigh? v.toList) (← Reg.ofName? rd)
  | branch cond annul, [t] => (target t.toList).map (.branch cond annul)
  | call, [t] => (target t.toList).map .call
  | mov, [src, rd] => do
    return .alu .or false 0 (← Operand.ofText? src.toList) (← Reg.ofName? rd)
  | cmp, [rs1, src] => do
    return .alu .sub true (← Reg.ofName? rs1) (← Operand.ofText? src.toList) 0
  | alu op setsIcc, ops => three? (.alu op setsIcc) ops
  | shift op, ops => three? (.shift op) ops
  | mul signed setsIcc, ops => three? (.mul signed setsIcc) ops
  | div signed setsIcc, ops => three? (.div signed setsIcc) ops
  | mulscc, ops => three? .mulscc ops
  | readState, [r, rd] => do return .readState (← StateReg.ofName? r) (← Reg.ofName? rd)
  | writeState, [rs1, src, r] => do
    return .writeState (← Reg.ofName? rs1) (← Operand.ofText? src.toList) (← StateReg.ofName? r)
  | ret, [] => some (.jmpl 31 (.imm 8) 0)
  | retl, [] => some (.jmpl 15 (.imm 8) 0)
  | jmpl, [s, rd] => do
    let (rs1, src) ← Operand.ofSum? s.toList
    return .jmpl rs1 src (← Reg.ofName? rd)
  | rett, [s] => (Operand.ofSum? s.toList).map fun (rs1, src) => .rett rs1 src
  | trapIf cond, [s] => (Operand.ofTrapNumber? s.toList).map fun (rs1, src) => .trapIf cond rs1 src
  | save, ops => three? .save ops
  | restore, [] => some (.restore 0 (.reg 0) 0)
  | restore, ops => three? .restore ops
  | load kind, [a, rd] => do
    let (rs1, src) ← Operand.ofAddress? a.toList
    return .load kind false rs1 src (← Reg.ofName? rd)
  | store kind, [rd, a] => do
    let (rs1, src) ← Operand.ofAddress? a.toList
    return .store kind (← Reg.ofName? rd) rs1 src
  | data, [v] => (Word.ofHex? v.toList).map .unknown
  | _, _ => none

end Opcode

namespace Assembly

/-- The instruction a line stands for. -/
def instr? (target : List Char → Option Word) (a : Assembly) : Option Instr := do
  (← Opcode.ofMnemonic? a.mnemonic).instr? target a.operands

theorem instr?_of_opcode {target : List Char → Option Word} {o : Opcode} {ops : List String}
    {i : Instr} (h : o.instr? target ops = some i) : instr? target ⟨o.mnemonic, ops⟩ = some i := by
  unfold instr?
  rw [Opcode.ofMnemonic?_mnemonic]
  exact h

/-- **Lines are read back**, if the distances in them are. -/
theorem instr?_assembly {write : Word → String} {target : List Char → Option Word}
    (htarget : ∀ w, target (write w).toList = some w) (i : Instr) :
    (i.assembly write).instr? target = some i.plain := by
  cases i with
  | nop => exact instr?_of_opcode (o := .nop) rfl
  | sethi v rd =>
    simp only [Instr.assembly, Instr.plain]
    split
    · exact instr?_of_opcode (o := .nop) rfl
    · refine instr?_of_opcode (o := .sethi) ?_
      rw [Opcode.instr?, Word.ofHigh?_hex, Reg.ofName?_name]
      rfl
  | branch cond annul offset =>
    exact instr?_of_opcode (o := .branch cond annul) (by simp [Opcode.instr?, htarget, Instr.plain])
  | call offset =>
    exact instr?_of_opcode (o := .call) (by simp [Opcode.instr?, htarget, Instr.plain])
  | alu op setsIcc rs1 src rd =>
    unfold Instr.assembly
    split <;> cases ‹Instr.alu op setsIcc rs1 src rd = _›
    · exact instr?_of_opcode (o := .mov) (by simp [Opcode.instr?, Instr.plain])
    · exact instr?_of_opcode (o := .cmp) (by simp [Opcode.instr?, Instr.plain])
    · exact instr?_of_opcode (o := .alu op setsIcc) (Opcode.three?_texts ..)
  | shift op rs1 src rd => exact instr?_of_opcode (o := .shift op) (Opcode.three?_texts ..)
  | mul signed setsIcc rs1 src rd =>
    exact instr?_of_opcode (o := .mul signed setsIcc) (Opcode.three?_texts ..)
  | div signed setsIcc rs1 src rd =>
    exact instr?_of_opcode (o := .div signed setsIcc) (Opcode.three?_texts ..)
  | mulscc rs1 src rd => exact instr?_of_opcode (o := .mulscc) (Opcode.three?_texts ..)
  | readState r rd =>
    exact instr?_of_opcode (o := .readState) (by simp [Opcode.instr?, Instr.plain])
  | writeState rs1 src r =>
    exact instr?_of_opcode (o := .writeState) (by simp [Opcode.instr?, Instr.plain])
  | jmpl rs1 src rd =>
    unfold Instr.assembly
    split <;> cases ‹Instr.jmpl rs1 src rd = _›
    · exact instr?_of_opcode (o := .ret) rfl
    · exact instr?_of_opcode (o := .retl) rfl
    · exact instr?_of_opcode (o := .jmpl) (by simp [Opcode.instr?, Instr.plain])
  | rett rs1 src => exact instr?_of_opcode (o := .rett) (by simp [Opcode.instr?, Instr.plain])
  | trapIf cond rs1 src =>
    refine instr?_of_opcode (o := .trapIf cond) ?_
    rw [Opcode.instr?, Operand.ofTrapNumber?_text]
    rfl
  | save rs1 src rd => exact instr?_of_opcode (o := .save) (Opcode.three?_texts ..)
  | restore rs1 src rd =>
    unfold Instr.assembly
    split <;> cases ‹Instr.restore rs1 src rd = _›
    · exact instr?_of_opcode (o := .restore) rfl
    · exact instr?_of_opcode (o := .restore) (Opcode.three?_texts ..)
  | load kind alternate rs1 src rd =>
    exact instr?_of_opcode (o := .load kind) (by simp [Opcode.instr?, Instr.plain])
  | store kind rd rs1 src =>
    exact instr?_of_opcode (o := .store kind) (by simp [Opcode.instr?, Instr.plain])
  | unknown w =>
    refine instr?_of_opcode (o := .data) ?_
    rw [Opcode.instr?, Word.ofHex?_hexPadded]
    rfl

/-! ### Texts -/

/-- The line of a text: the first blank ends the mnemonic, and each comma ends an
operand. A blank stands before every operand. -/
def ofText (cs : List Char) : Assembly where
  mnemonic := String.ofList (cs.takeWhile (· != ' '))
  operands :=
    match cs.dropWhile (· != ' ') with
    | [] => []
    | rest => (rest.splitOn ',').map fun op => String.ofList op.tail

/-- Operands with commas between them, and a blank before each. -/
theorem intercalate_blank (op : String) (ops : List String) :
    ' ' :: [',', ' '].intercalate ((op :: ops).map String.toList) =
      [','].intercalate ((op :: ops).map fun op => ' ' :: op.toList) := by
  induction ops generalizing op with
  | nil => simp
  | cons op' ops ih =>
    have hrest := ih op'
    simp only [List.map_cons] at hrest ⊢
    rw [List.intercalate_cons_cons, List.intercalate_cons_cons, ← hrest]
    simp

/-- A text without blanks ends where the first blank is. -/
theorem takeWhile_mnemonic {cs : List Char} (hcs : ' ' ∉ cs) (r : List Char)
    (hr : ∀ ch ∈ r.head?, ch = ' ') :
    (cs ++ r).takeWhile (· != ' ') = cs ∧ (cs ++ r).dropWhile (· != ' ') = r := by
  have hall : ∀ ch ∈ cs, (ch != ' ') = true := by
    intro ch hmem
    exact bne_iff_ne.mpr fun he => hcs (he ▸ hmem)
  rw [List.takeWhile_append_of_pos hall, List.dropWhile_append_of_pos hall]
  cases r with
  | nil => simp
  | cons ch r =>
    obtain rfl := hr ch rfl
    simp

/-- A text has one line, if its mnemonic has no blank and its operands no comma. -/
theorem ofText_text {a : Assembly} (hmnemonic : ' ' ∉ a.mnemonic.toList)
    (hoperands : ∀ op ∈ a.operands, ',' ∉ op.toList) : ofText a.text.toList = a := by
  obtain ⟨mnemonic, operands⟩ := a
  cases operands with
  | nil =>
    obtain ⟨htake, hdrop⟩ := takeWhile_mnemonic hmnemonic [] (by simp)
    rw [List.append_nil] at htake hdrop
    simp only [ofText, text, htake, hdrop, String.ofList_toList]
  | cons op ops =>
    have hlist : (text ⟨mnemonic, op :: ops⟩).toList =
        mnemonic.toList ++ ' ' :: [',', ' '].intercalate ((op :: ops).map String.toList) := by
      simp [text, String.toList_intercalate]
    obtain ⟨htake, hdrop⟩ := takeWhile_mnemonic hmnemonic
      (' ' :: [',', ' '].intercalate ((op :: ops).map String.toList)) (by simp)
    have hsplit : ([','].intercalate ((op :: ops).map fun op => ' ' :: op.toList)).splitOn ',' =
        (op :: ops).map fun op => ' ' :: op.toList := by
      refine List.splitOn_intercalate ',' ?_ (by simp)
      intro part hpart
      obtain ⟨op', hop', rfl⟩ := List.mem_map.mp hpart
      simp [hoperands op' hop']
    simp only [ofText, hlist, htake, hdrop, String.ofList_toList]
    rw [intercalate_blank, hsplit]
    simp [Function.comp_def]

end Assembly

theorem notMem_intercalate {ch : Char} {sep : List Char} {parts : List (List Char)} (hsep : ch ∉ sep)
    (h : ∀ p ∈ parts, ch ∉ p) : ch ∉ sep.intercalate parts := by
  induction parts with
  | nil => simp
  | cons p parts ih =>
    have hrest := ih fun q hq => h q (List.mem_cons_of_mem p hq)
    have hp := h p List.mem_cons_self
    cases parts with
    | nil => simpa using hp
    | cons q parts => simp [List.intercalate_cons_cons, hp, hsep, hrest]

namespace Foreign

variable {ch : Char}

theorem notMem_text (h : Foreign ch) (src : Operand) : ch ∉ src.text.toList := by
  have hsign := h.sign
  simp only [List.mem_cons, not_or] at hsign
  cases src with
  | reg r => exact h.name r
  | imm v =>
    have hdigits := notMem_toDigits h.digit (b := 10) (by decide)
    rw [Operand.text, Word.signedText]
    split <;> simp [hdigits, hsign]

theorem notMem_sumText (h : Foreign ch) (rs1 : Reg) (src : Operand) :
    ch ∉ (src.sumText rs1).toList := by
  have hsign := h.sign
  simp only [List.mem_cons, not_or] at hsign
  have hname := h.name
  have hdigits := notMem_toDigits h.digit (b := 10) (by decide)
  cases src with
  | reg r =>
    simp only [Operand.sumText]
    split <;> simp [hname, hsign]
  | imm v =>
    simp only [Operand.sumText]
    split_ifs <;> simp [hname, hdigits, hsign]

theorem notMem_hex (h : Foreign ch) (n : Nat) : ch ∉ (Numeral.hex n).toList := by
  have hsign := h.sign
  simp only [List.mem_cons, not_or] at hsign
  have hdigits := notMem_toDigits h.digit (b := 16) (by decide)
  simp [Numeral.hex, Numeral.hexDigits, hdigits, hsign]

theorem notMem_hexPadded (h : Foreign ch) (width n : Nat) :
    ch ∉ (Numeral.hexPadded width n).toList := by
  have hsign := h.sign
  simp only [List.mem_cons, not_or] at hsign
  have hdigits := notMem_toDigits h.digit (b := 16) (by decide)
  simp [Numeral.hexPadded, Numeral.paddedDigits, hdigits, hsign]

/-- It is in no operand of a line either. -/
theorem notMem_operands (h : Foreign ch) {write : Word → String}
    (hwrite : ∀ w, ch ∉ (write w).toList) (i : Instr) :
    ∀ op ∈ (i.assembly write).operands, ch ∉ op.toList := by
  have hsign := h.sign
  simp only [List.mem_cons, not_or] at hsign
  unfold Instr.assembly
  split <;> try split
  all_goals simp [h.name, h.notMem_text, h.state, h.notMem_sumText, hwrite, Operand.addressText,
    h.notMem_hex, h.notMem_hexPadded, hsign]

end Foreign

namespace Instr

/-- The instruction a text stands for. -/
def ofText? (target : List Char → Option Word) (s : String) : Option Instr :=
  (Assembly.ofText s.toList).instr? target

section

variable {write : Word → String} {target : List Char → Option Word}

/-- A mnemonic is that of an opcode. -/
theorem exists_opcode (htarget : ∀ w, target (write w).toList = some w) (i : Instr) :
    ∃ o : Opcode, o.mnemonic = (i.assembly write).mnemonic := by
  have hread := Assembly.instr?_assembly htarget i
  obtain ⟨o, ho, -⟩ := Option.bind_eq_some_iff.mp hread
  have hname : (o.mnemonic == (i.assembly write).mnemonic) = true :=
    List.find?_some (p := fun o : Opcode => o.mnemonic == (i.assembly write).mnemonic) ho
  exact ⟨o, eq_of_beq hname⟩

theorem blank_notMem_mnemonic (htarget : ∀ w, target (write w).toList = some w) (i : Instr) :
    ' ' ∉ (i.assembly write).mnemonic.toList := by
  have hblank : ∀ o ∈ Opcode.all, ' ' ∉ o.mnemonic.toList := by decide +kernel
  obtain ⟨o, ho⟩ := exists_opcode htarget i
  rw [← ho]
  exact hblank o (Opcode.mem_all o)

/-- A text is one line of a file. -/
theorem newline_notMem_text (htarget : ∀ w, target (write w).toList = some w)
    (hwrite : ∀ w, '\n' ∉ (write w).toList) (i : Instr) : '\n' ∉ (i.assembly write).text.toList := by
  have hmnemonics : ∀ o ∈ Opcode.all, '\n' ∉ o.mnemonic.toList := by decide +kernel
  obtain ⟨o, ho⟩ := exists_opcode htarget i
  have hmnemonic := hmnemonics o (Opcode.mem_all o)
  have hoperands := foreign_newline.notMem_operands hwrite i
  rw [ho] at hmnemonic
  generalize i.assembly write = a at hmnemonic hoperands
  obtain ⟨mnemonic, operands⟩ := a
  cases operands with
  | nil => exact hmnemonic
  | cons op ops =>
    have hparts : ∀ p ∈ (op :: ops).map String.toList, '\n' ∉ p := by
      intro p hp
      obtain ⟨op', hop', rfl⟩ := List.mem_map.mp hp
      exact hoperands op' hop'
    have hjoined := notMem_intercalate (show '\n' ∉ [',', ' '] by decide) hparts
    simpa [Assembly.text] using ⟨hmnemonic, hjoined⟩

/-- **Texts are read back.** -/
theorem ofText?_text (htarget : ∀ w, target (write w).toList = some w)
    (hwrite : ∀ w, ',' ∉ (write w).toList) (i : Instr) :
    ofText? target (i.assembly write).text = some i.plain := by
  unfold ofText?
  rw [Assembly.ofText_text (blank_notMem_mnemonic htarget i) (foreign_comma.notMem_operands hwrite i)]
  exact Assembly.instr?_assembly htarget i

end

end Instr

end SparcIU
