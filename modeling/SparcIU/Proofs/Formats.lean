/-
# The fields of an instruction word

A format lays out the bits of a word as a row of fields. What is read in the fields of a
format is the word, no more and no less: the numbers have the widths of their fields, put
together they are the word, and no other such numbers are (`Word.fields_eq_iff`). This
holds of every format and every word, since every field can be read from every word.

A field with a sign is widened to the one integer in its range that the low bits of the
word leave open (`Word.signExtend_eq_iff`). The displacements are four times such
integers.

Key definitions: `Format`, `Format.layout`, `Word.fields`, `Word.SignedIn`.
Key theorems: `Word.fields_eq_iff`, `Word.signExtend_eq_iff`, `Word.branchOffset_signed`,
`Word.callOffset_signed`, `decoding_lossless`.
-/
import Mathlib.Data.Int.ModEq
import SparcIU.Proofs.Layout
import SparcIU.Proofs.Words

namespace SparcIU

/-! ### The formats -/

/-- The formats of an instruction word. `register` and `immediate` are the two of
arithmetic and of loads and stores, told apart by bit 13. -/
inductive Format where
  | call
  | sethi
  | branch
  | register
  | immediate

/-- The widths of the fields of a format. -/
def Format.layout : Format → Layout
  | call => [2, 30]
  | sethi => [2, 5, 3, 22]
  | branch => [2, 1, 4, 3, 22]
  | register => [2, 5, 6, 5, 1, 8, 5]
  | immediate => [2, 5, 6, 5, 1, 13]

theorem Format.layout_sum (f : Format) : f.layout.sum = 32 := by
  cases f <;> rfl

namespace Word

variable {bits : Nat}

/-- What is read in the fields of a format. The signed operand stands for its field
modulo 2^13. -/
def fields (w : Word) : Format → List Nat
  | .call => [w.op, w.disp30.toNat]
  | .sethi => [w.op, w.rd, w.op2, w.imm22.toNat]
  | .branch => [w.op, w.annul.toNat, w.cond, w.op2, w.disp22.toNat]
  | .register => [w.op, w.rd, w.op3, w.rs1, w.immediate.toNat, w.asi, w.rs2]
  | .immediate => [w.op, w.rd, w.op3, w.rs1, w.immediate.toNat, (w.simm13.toInt % 2 ^ 13).toNat]

/-! ### Fields with a sign -/

/-- `z` is what the low bits of `w` are as a two's-complement number. -/
structure SignedIn (w : Word) (bits : Nat) (z : Int) : Prop where
  lower : -2 ^ (bits - 1) ≤ z
  upper : z < 2 ^ (bits - 1)
  congruent : z ≡ w.toNat [ZMOD 2 ^ bits]

/-- There is one such number, the remainder that is balanced around zero. -/
theorem bmod_eq_iff_signedIn (h : 1 ≤ bits) (w : Word) (z : Int) :
    (w.toNat : Int).bmod (2 ^ bits) = z ↔ w.SignedIn bits z := by
  obtain ⟨k, rfl⟩ := Nat.exists_eq_add_of_le' h
  have hmodulus : ((2 ^ (k + 1) : Nat) : Int) = 2 ^ k * 2 := by
    rw [Nat.pow_succ]
    push_cast
    rfl
  have hhalf : ((2 ^ (k + 1) : Nat) : Int) / 2 = 2 ^ k := by omega
  have hhalf' : (((2 ^ (k + 1) : Nat) : Int) + 1) / 2 = 2 ^ k := by omega
  have hcongruent : ((2 ^ (k + 1) : Nat) : Int) ∣ z - w.toNat ↔ z ≡ w.toNat [ZMOD 2 ^ (k + 1)] := by
    rw [Int.modEq_comm, Int.modEq_iff_dvd]
    push_cast
    exact Iff.rfl
  rw [Int.bmod_eq_iff (Nat.two_pow_pos _), hhalf, hhalf', hcongruent]
  exact ⟨fun ⟨hl, hu, hc⟩ => ⟨hl, hu, hc⟩, fun ⟨hl, hu, hc⟩ => ⟨hl, hu, hc⟩⟩

/-- **Sign extension loses nothing.** A field is widened to the number it is. -/
theorem signExtend_eq_iff (h1 : 1 ≤ bits) (h32 : bits ≤ 32) (w : Word) (z : Int) :
    (signExtend bits w).toInt = z ↔ w.SignedIn bits z := by
  rw [toInt_signExtend h1 h32, Nat.one_shiftLeft]
  exact bmod_eq_iff_signedIn h1 w z

theorem simm13_signed (w : Word) : w.SignedIn 13 w.simm13.toInt :=
  (signExtend_eq_iff (by decide) (by decide) w _).mp rfl

/-! ### Displacements -/

/-- A branch goes four times the signed number in its field. -/
theorem branchOffset_signed (w : Word) :
    ∃ z, w.disp22.SignedIn 22 z ∧ (w.branchOffset.toNat : Int) = 4 * z % 2 ^ 32 := by
  refine ⟨_, (bmod_eq_iff_signedIn (by decide) _ _).mp rfl, ?_⟩
  have hfield : (w.disp22.toNat : Int).bmod (2 ^ 22) = (w.toNat : Int).bmod 0x400000 := by
    rw [toNat_disp22]
    exact Int.emod_bmod (w.toNat : Int) 0x400000
  rw [branchOffset_eq, toNat_ofInt, hfield]
  rfl

/-- So does a call: modulo 2^32 the sign of its number does not show. -/
theorem callOffset_signed (w : Word) :
    ∃ z, w.disp30.SignedIn 30 z ∧ (w.callOffset.toNat : Int) = 4 * z % 2 ^ 32 := by
  obtain ⟨z, hz⟩ : ∃ z, w.disp30.SignedIn 30 z := ⟨_, (bmod_eq_iff_signedIn (by decide) _ _).mp rfl⟩
  refine ⟨z, hz, ?_⟩
  have hcongruent : z % 2 ^ 30 = w.disp30.toNat % 2 ^ 30 := hz.congruent
  rw [toNat_disp30] at hcongruent
  rw [toNat_callOffset]
  omega

/-! ### Fields cut from a word -/

theorem toNat_annul (w : Word) : w.annul.toNat = w.toNat / 2 ^ 29 % 2 ^ 1 :=
  toNat_odd _

theorem toNat_immediate (w : Word) : w.immediate.toNat = w.toNat / 2 ^ 13 % 2 ^ 1 :=
  toNat_odd _

theorem val_rs2 (w : Word) : w.rs2.val = w.toNat % 2 ^ 5 := rfl

theorem simm13_emod (w : Word) : w.simm13.toInt % 2 ^ 13 = (w.toNat % 2 ^ 13 : Nat) :=
  w.simm13_signed.congruent

/-- The fields of a format are where its layout has them. -/
theorem fields_eq_cut (w : Word) (f : Format) : w.fields f = f.layout.cut w.toNat := by
  have hop : w.op = w.toNat / 2 ^ 30 % 2 ^ 2 := (Nat.mod_eq_of_lt w.op_lt).symm
  cases f with
  | call =>
    rw [fields, hop, toNat_disp30, ← Layout.cut_singleton]
    rfl
  | sethi =>
    rw [fields, hop, toNat_imm22, ← Layout.cut_singleton]
    rfl
  | branch =>
    rw [fields, hop, toNat_annul, toNat_disp22, ← Layout.cut_singleton]
    rfl
  | register =>
    rw [fields, hop, toNat_immediate, val_rs2, ← Layout.cut_singleton]
    rfl
  | immediate =>
    rw [fields, hop, toNat_immediate, simm13_emod, Int.toNat_natCast, ← Layout.cut_singleton]
    rfl

/-- **The fields of a format are the word.** -/
theorem fields_eq_iff (w : Word) (f : Format) (values : List Nat) :
    w.fields f = values ↔ f.layout.Fits values ∧ f.layout.assemble values = w.toNat := by
  rw [fields_eq_cut]
  apply Layout.cut_eq_iff
  rw [f.layout_sum]
  exact w.toNat_lt

theorem cond_eq (w : Word) : w.cond = w.rd % 16 := by
  show w.toNat / 2 ^ 25 % 16 = w.toNat / 2 ^ 25 % 32 % 16
  omega

end Word

/-- **Decoding loses and distorts no field.** For a width from 1 to 32 bits sign extension
gives the one integer in its range that is congruent to the word. In every format the
fields of a word are the numbers, each as wide as its field, that make the word, and there
are no others. The fields that share bits agree: the condition is the destination modulo
16, and the signed operand gives the software trap number modulo 128 and the second source
modulo 32. The displacements in bytes are four times the signed numbers in their fields,
modulo 2^32. -/
theorem decoding_lossless :
    (∀ bits, 1 ≤ bits → bits ≤ 32 → ∀ (v : Word) (z : Int),
      (Word.signExtend bits v).toInt = z ↔ v.SignedIn bits z) ∧
    ∀ w : Word,
      (∀ (f : Format) (values : List Nat),
        w.fields f = values ↔ f.layout.Fits values ∧ f.layout.assemble values = w.toNat) ∧
      w.SignedIn 13 w.simm13.toInt ∧
      w.cond = w.rd % 16 ∧
      (w.imm7.toNat : Int) = w.simm13.toInt % 128 ∧
      (w.rs2 : Int) = w.simm13.toInt % 32 ∧
      (∃ z, w.disp22.SignedIn 22 z ∧ (w.branchOffset.toNat : Int) = 4 * z % 2 ^ 32) ∧
      ∃ z, w.disp30.SignedIn 30 z ∧ (w.callOffset.toNat : Int) = 4 * z % 2 ^ 32 := by
  refine ⟨fun bits h1 h32 => Word.signExtend_eq_iff h1 h32, fun w => ?_⟩
  have hlow := w.simm13_emod
  refine ⟨w.fields_eq_iff, w.simm13_signed, w.cond_eq, ?_, ?_, w.branchOffset_signed,
    w.callOffset_signed⟩
  · rw [w.toNat_imm7]
    omega
  · rw [w.val_rs2]
    omega

/-- A single bit, the operand of `save %sp, -96, %sp` and a whole word are negative; the
fields of that `save`, and those of `bne,a` to sixteen bytes back. -/
theorem decoding_lossless_save :
    (Word.signExtend 1 3).toInt = -1 ∧ (Word.signExtend 13 0x9de3bfa0).toInt = -96 ∧
    (Word.signExtend 32 0x80000000).toInt = -2 ^ 31 ∧
    Word.fields 0x9de3bfa0 .immediate = [2, 14, 0x3c, 14, 1, 2 ^ 13 - 96] ∧
    Word.fields 0x32bffffc .branch = [0, 1, 9, 2, 2 ^ 22 - 4] ∧
    ((Word.branchOffset 0x32bffffc).toNat : Int) = -16 % 2 ^ 32 := by
  have hsign := decoding_lossless.1
  obtain ⟨hfields, -⟩ := decoding_lossless.2 0x9de3bfa0
  obtain ⟨hbranch, -, -, -, -, ⟨z, hz, hoffset⟩, -⟩ := decoding_lossless.2 0x32bffffc
  have hback : Word.SignedIn (Word.disp22 0x32bffffc) 22 (-4) := ⟨by decide, by decide, by decide⟩
  refine ⟨(hsign 1 (by decide) (by decide) _ _).mpr ⟨by decide, by decide, by decide⟩,
    (hsign 13 (by decide) (by decide) _ _).mpr ⟨by decide, by decide, by decide⟩,
    (hsign 32 (by decide) (by decide) _ _).mpr ⟨by decide, by decide, by decide⟩,
    (hfields _ _).mpr (by decide), (hbranch _ _).mpr (by decide), ?_⟩
  have hextended := hsign 22 (by decide) (by decide) (Word.disp22 0x32bffffc)
  obtain rfl : z = -4 := ((hextended z).mpr hz).symm.trans ((hextended (-4)).mpr hback)
  exact hoffset

end SparcIU
