/-
# What is kept in a word

The state register, the traps and the words of a record are all written as
numbers or bytes, and nothing is lost on the way: a state register and its word
determine each other, a trap that can arise is the one its number stands for,
and a row of words is read back from its bytes, in either order.

Key theorems: `Psr.toBits_ofBits`, `Psr.ofBits_toBits`, `TrapKind.code_of_ofCode`,
`TrapKind.ofCode_code`, `Cpu.wordsOf_toRecord`.
-/
import SparcIU.Proofs.Bytes
import SparcIU.Proofs.Keeping
import SparcIU.Proofs.Layout
import SparcIU.Record
import Mathlib.Tactic.SplitIfs

namespace SparcIU

/-! ### The state register -/

namespace Psr

theorem toNat_bit (w : Word) (weight : Nat) : (bit w weight).toNat = w.toNat / weight % 2 :=
  Word.toNat_odd _

theorem toNat_toBits (p : Psr) : p.toBits.toNat =
    p.version.toNat * 0x1000000 + p.icc.n.toNat * 0x800000 + p.icc.z.toNat * 0x400000
      + p.icc.v.toNat * 0x200000 + p.icc.c.toNat * 0x100000 + p.reserved.val * 0x100
      + p.s.toNat * 0x80 + p.ps.toNat * 0x40 + p.et.toNat * 0x20 + p.cwp.val := by
  have hversion := p.version.toNat_lt
  have hn := p.icc.n.toNat_le
  have hz := p.icc.z.toNat_le
  have hv := p.icc.v.toNat_le
  have hc := p.icc.c.toNat_le
  have hs := p.s.toNat_le
  have hps := p.ps.toNat_le
  have het := p.et.toNat_le
  unfold toBits
  rw [UInt32.toNat_ofNat', Nat.mod_eq_of_lt]
  omega

/-- A number is made of the fields of the state register. -/
theorem digits_eq (w : Nat) (h : w < 0x100000000) :
    w / 0x1000000 % 0x100 * 0x1000000 + w / 0x800000 % 2 * 0x800000 + w / 0x400000 % 2 * 0x400000
      + w / 0x200000 % 2 * 0x200000 + w / 0x100000 % 2 * 0x100000 + w / 0x100 % 0x1000 * 0x100
      + w / 0x80 % 2 * 0x80 + w / 0x40 % 2 * 0x40 + w / 0x20 % 2 * 0x20 + w % 0x20 = w := by
  have hrow := Layout.assemble_cut [8, 1, 1, 1, 1, 12, 1, 1, 1, 5] w
  simp only [Layout.cut, Layout.assemble, List.sum_cons, List.sum_nil, Nat.reduceAdd, Nat.reducePow,
    Nat.div_one, Nat.mul_one, Nat.add_zero, ← Nat.add_assoc, Nat.mod_eq_of_lt h] at hrow
  exact hrow

theorem toNat_version (w : Word) : (ofBits w).version.toNat = w.toNat / 0x1000000 % 0x100 := by
  show (w / 0x1000000).toUInt8.toNat = _
  rw [UInt32.toNat_toUInt8, UInt32.toNat_div]
  rfl

/-- A register made of a word gives the word back. -/
@[simp] theorem toBits_ofBits (w : Word) : (ofBits w).toBits = w := by
  rw [← UInt32.toNat_inj, toNat_toBits, toNat_version]
  refine Eq.trans ?_ (digits_eq w.toNat w.toNat_lt)
  rw [← toNat_bit w 0x800000, ← toNat_bit w 0x400000, ← toNat_bit w 0x200000,
    ← toNat_bit w 0x100000, ← toNat_bit w 0x80, ← toNat_bit w 0x40, ← toNat_bit w 0x20]
  rfl

theorem bit_eq {w : Word} {weight : Nat} {b : Bool} (h : w.toNat / weight % 2 = b.toNat) :
    bit w weight = b := by
  unfold bit
  rw [h]
  cases b <;> rfl

/-- A word made of a register gives the register back. -/
@[simp] theorem ofBits_toBits (p : Psr) : ofBits p.toBits = p := by
  have hbits := toNat_toBits p
  have hversion := p.version.toNat_lt
  have hn := p.icc.n.toNat_le
  have hz := p.icc.z.toNat_le
  have hv := p.icc.v.toNat_le
  have hc := p.icc.c.toNat_le
  have hs := p.s.toNat_le
  have hps := p.ps.toNat_le
  have het := p.et.toNat_le
  have hreserved := p.reserved.isLt
  have hcwp := p.cwp.isLt
  have hdiv : (p.toBits / 0x1000000).toNat = p.toBits.toNat / 0x1000000 := UInt32.toNat_div ..
  generalize p.toBits = w at *
  obtain ⟨version, ⟨n, z, v, c⟩, reserved, s, ps, et, cwp⟩ := p
  simp only at *
  unfold ofBits
  congr 1
  · rw [← UInt8.toNat_inj, UInt32.toNat_toUInt8, hdiv]
    omega
  · congr 1
    all_goals
      apply bit_eq
      omega
  · apply Fin.ext
    simp only [Fin.ofNat]
    omega
  · apply bit_eq
    omega
  · apply bit_eq
    omega
  · apply bit_eq
    omega
  · apply Fin.ext
    simp only [Fin.ofNat]
    omega

end Psr

/-! ### Traps -/

namespace TrapKind

/-- Software traps have the upper half of the numbers. -/
theorem toNat_code_software (n : UInt8) : (software n).code.toNat = 0x80 + n.toNat % 0x80 := by
  have h80 : (0x80 : UInt8).toNat = 0x80 := rfl
  unfold code
  rw [UInt8.toNat_add, UInt8.toNat_mod, h80]
  omega

/-- The number of the trap that a number stands for. -/
theorem code_of_ofCode {code : UInt8} {t : TrapKind} (h : ofCode code = some t) :
    t.code = code := by
  unfold ofCode at h
  split_ifs at h with hsoft
  · cases h
    have hlt := code.toNat_lt
    have h80 : (0x80 : UInt8).toNat = 0x80 := rfl
    rw [UInt8.le_iff_toNat_le, h80] at hsoft
    rw [← UInt8.toNat_inj, toNat_code_software, UInt8.toNat_mod, h80]
    omega
  all_goals
    cases h
    symm
    assumption

/-- A trap whose number has room is the one its number stands for. -/
theorem ofCode_code {t : TrapKind} (h : t.Small) : ofCode t.code = some t := by
  cases t with
  | software n =>
    have hlt := h n rfl
    have h80 : (0x80 : UInt8).toNat = 0x80 := rfl
    rw [UInt8.lt_iff_toNat_lt, h80] at hlt
    have hcode := toNat_code_software n
    unfold ofCode
    rw [if_pos (by rw [UInt8.le_iff_toNat_le, hcode, h80]; omega)]
    congr 2
    rw [← UInt8.toNat_inj, UInt8.toNat_mod, hcode, h80]
    omega
  | _ => rfl

/-- No trap has the number 0. -/
theorem code_ne_zero (t : TrapKind) : t.code ≠ 0 := by
  cases t with
  | software n =>
    intro h
    have hcode := toNat_code_software n
    rw [h] at hcode
    have h0 : (0 : UInt8).toNat = 0 := rfl
    omega
  | _ => decide

end TrapKind

/-! ### Rows of words -/

namespace Cpu

theorem wordsOf_bytes (o : ByteOrder) (w : Word) (bs : List UInt8) :
    wordsOf o (o.bytes w ++ bs) = w :: wordsOf o bs := by
  obtain ⟨a, b, c, d, hbytes, hword⟩ := o.word_bytes w
  rw [hbytes, ← hword]
  rfl

/-- A row of words is read back from its bytes. -/
theorem wordsOf_flatMap (o : ByteOrder) (ws : List Word) : wordsOf o (ws.flatMap o.bytes) = ws := by
  induction ws with
  | nil => rfl
  | cons w ws ih => rw [List.flatMap_cons, wordsOf_bytes, ih]

/-- A row of bytes without a word is shorter than one. -/
theorem length_of_no_word {bs : List UInt8}
    (h : ∀ a b c d rest, bs = a :: b :: c :: d :: rest → False) : bs.length < 4 := by
  rcases bs with _ | ⟨a, _ | ⟨b, _ | ⟨c, _ | ⟨d, rest⟩⟩⟩⟩
  case cons.cons.cons.cons => exact (h a b c d rest rfl).elim
  all_goals simp only [List.length_cons, List.length_nil, Nat.reduceAdd, Nat.reduceLT]

/-- Four bytes make a word. -/
theorem length_wordsOf (o : ByteOrder) (bs : List UInt8) :
    (wordsOf o bs).length = bs.length / 4 := by
  fun_induction wordsOf o bs with
  | case1 a b c d bs ih =>
    simp only [List.length_cons, ih]
    omega
  | case2 bs h =>
    have hshort := length_of_no_word h
    rw [List.length_nil]
    omega

theorem length_flatMap_bytes (o : ByteOrder) (ws : List Word) :
    (ws.flatMap o.bytes).length = 4 * ws.length := by
  induction ws with
  | nil => rfl
  | cons w ws ih =>
    rw [List.flatMap_cons, List.length_append, o.length_bytes, ih, List.length_cons]
    omega

/-! ### Records -/

/-- The program counters and the registers. -/
def recordHead (c : Cpu) : List Word := c.pc :: c.npc :: c.regs.toList

/-- The word of a pending trap. -/
def trapWord : Option TrapKind → Word
  | none => 0
  | some t => t.code.toUInt32

/-- The words behind the registers. -/
def recordTail (c : Cpu) : List Word :=
  [c.psr.toBits, c.wim, c.tbr, c.y, trapWord c.pendingTrap, if c.pendingAnnul then 1 else 0,
   c.branchTarget.getD noTarget]

theorem recordWords_eq (c : Cpu) : c.recordWords = c.recordHead ++ c.recordTail := rfl

/-- The fields of `n` registers. -/
def registerFields (n : Nat) : List RecordField :=
  (List.range n).map fun i => fun c w => .ok { c with regs := c.regs.setIfInBounds i w }

/-- The fields behind the registers. -/
def tailFields : List RecordField :=
  [psrField,
   fun c w => .ok { c with wim := w },
   fun c w => .ok { c with tbr := w },
   fun c w => .ok { c with y := w },
   trapField,
   fun c w => .ok { c with pendingAnnul := w != 0 },
   fun c w => .ok { c with branchTarget := if w = noTarget then none else some w }]

theorem recordFields_eq (n : Nat) : recordFields n =
    ((fun c w => .ok { c with pc := w }) :: (fun c w => .ok { c with npc := w }) ::
      registerFields n) ++ tailFields := rfl

theorem length_registerFields (n : Nat) : (registerFields n).length = n := by
  simp [registerFields]

theorem length_recordWords (c : Cpu) : c.recordWords.length = c.regs.size + 9 := by
  simp [recordWords]

/-- The words of a record are those of the processor, in either order. -/
theorem wordsOf_toRecord (c : Cpu) (o : ByteOrder) :
    wordsOf o (c.toRecord o).data.toList = c.recordWords := by
  rw [toRecord, List.toList_data_toByteArray, wordsOf_flatMap]

theorem size_toRecord (c : Cpu) (o : ByteOrder) : (c.toRecord o).size = c.recordLength := by
  rw [toRecord, List.size_toByteArray, length_flatMap_bytes, length_recordWords,
    recordLength]
  omega

end Cpu
end SparcIU
