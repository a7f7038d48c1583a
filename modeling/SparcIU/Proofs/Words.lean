/-
# Words as numbers

Facts about words that are facts about the numbers they stand for: which
addresses are aligned, what is left of the low bits of a trap base, which bits
a mask holds, that there are four formats, and that a narrow field is widened to
the two's-complement number it is.

Key theorems: `Word.isAligned_iff`, `Word.mod_sixteen_iff`, `Word.toNat_page`,
`Word.toInt_signExtend`, `Word.branchOffset_eq`, `Word.toNat_callOffset`.
-/
import Mathlib.Algebra.Group.Int.Defs
import Mathlib.Algebra.Group.Nat.Defs
import SparcIU.Instruction.Fields

namespace SparcIU
namespace Word

/-! ### Addresses -/

theorem isAligned_iff {a : Word} : a.isAligned ↔ a.toNat % 4 = 0 := by
  unfold isAligned
  rw [beq_iff_eq, ← UInt32.toNat_inj, UInt32.toNat_mod]
  exact Iff.rfl

/-- Words next to each other are aligned alike. -/
theorem isAligned_add_four {a : Word} (h : a.isAligned) : (a + 4).isAligned := by
  have h4 : (4 : Word).toNat = 4 := rfl
  rw [isAligned_iff] at h ⊢
  rw [UInt32.toNat_add, h4]
  omega

/-- The address of the word around a byte. -/
theorem toNat_alignDown (a : Word) : a.alignDown.toNat = a.toNat - a.toNat % 4 := by
  have hmod : (a % 4).toNat = a.toNat % 4 := UInt32.toNat_mod ..
  have hle : a % 4 ≤ a := by
    rw [UInt32.le_iff_toNat_le, hmod]
    exact Nat.mod_le _ _
  rw [alignDown, UInt32.toNat_sub_of_le _ _ hle, hmod]

/-! ### Bases -/

theorem mod_sixteen_iff {a : Word} : a % 16 = 0 ↔ a.toNat % 16 = 0 := by
  rw [← UInt32.toNat_inj, UInt32.toNat_mod]
  exact Iff.rfl

/-- A word without its low twelve bits. -/
theorem toNat_page (a : Word) : (a - a % 0x1000).toNat = a.toNat - a.toNat % 0x1000 := by
  have hle : a % 0x1000 ≤ a := by
    rw [UInt32.le_iff_toNat_le, UInt32.toNat_mod]
    exact Nat.mod_le _ _
  rw [UInt32.toNat_sub_of_le _ _ hle, UInt32.toNat_mod]
  rfl

/-! ### Masks -/

theorem testBit_of_ge (v : Word) {w : Nat} (hw : 32 ≤ w) : v.toNat.testBit w = false :=
  Nat.testBit_lt_two_pow (Nat.lt_of_lt_of_le v.toNat_lt (Nat.pow_le_pow_right (by decide) hw))

theorem toNat_one_shiftLeft {k : Nat} (hk : k < 32) :
    ((1 : Word) <<< UInt32.ofNat k).toNat = 1 <<< k := by
  have hmod : k % 2 ^ 32 % 32 = k := by omega
  rw [UInt32.toNat_shiftLeft, UInt32.toNat_ofNat', hmod, show (1 : Word).toNat = 1 from rfl,
    Nat.one_shiftLeft]
  exact Nat.mod_eq_of_lt (Nat.pow_lt_pow_right (by decide) hk)

theorem toUInt32_eq_ofNat (n : UInt8) : n.toUInt32 = UInt32.ofNat n.toNat := by
  rw [← UInt32.toNat_inj, UInt8.toNat_toUInt32, UInt32.toNat_ofNat', Nat.mod_eq_of_lt]
  exact Nat.lt_of_lt_of_le n.toNat_lt (by decide)

theorem toNat_eq_zero_iff {v : Word} : v.toNat = 0 ↔ v = 0 := by
  rw [← UInt32.toNat_inj]
  exact Iff.rfl

theorem eq_zero_iff {v : Word} : v = 0 ↔ ∀ w, v.toNat.testBit w = false := by
  rw [← UInt32.toNat_inj]
  constructor
  · intro h w
    rw [h]
    exact Nat.zero_testBit w
  · intro h
    apply Nat.eq_of_testBit_eq
    intro w
    rw [h w]
    exact (Nat.zero_testBit w).symm

/-- The word of a single bit holds that bit. -/
theorem testBit_one_shiftLeft {k : Nat} (hk : k < 32) (w : Nat) :
    ((1 : Word) <<< UInt32.ofNat k).toNat.testBit w = decide (w = k) := by
  rw [toNat_one_shiftLeft hk, Nat.one_shiftLeft, Nat.testBit_two_pow]
  exact decide_eq_decide.mpr eq_comm

/-! ### Fields -/

theorem op_lt (w : Word) : w.op < 4 := by
  have hlt := w.toNat_lt
  unfold op
  omega

/-- The lowest bit of a number, as a truth value and as a number. -/
theorem toNat_odd (n : Nat) : (n % 2 == 1).toNat = n % 2 := by
  rcases Nat.mod_two_eq_zero_or_one n with h | h <;> rw [h] <;> rfl

theorem toNat_imm7 (w : Word) : w.imm7.toNat = w.toNat % 2 ^ 7 := UInt32.toNat_mod ..

theorem toNat_imm22 (w : Word) : w.imm22.toNat = w.toNat % 2 ^ 22 := UInt32.toNat_mod ..

theorem toNat_disp22 (w : Word) : w.disp22.toNat = w.toNat % 2 ^ 22 := UInt32.toNat_mod ..

theorem toNat_disp30 (w : Word) : w.disp30.toNat = w.toNat % 2 ^ 30 := UInt32.toNat_mod ..

/-! ### Two's complement -/

theorem toInt_bounds (w : Word) : -2 ^ 31 ≤ w.toInt ∧ w.toInt < 2 ^ 31 :=
  ⟨w.toInt32.le_toInt, w.toInt32.toInt_lt⟩

theorem toInt_eq_bmod (w : Word) : w.toInt = (w.toNat : Int).bmod 0x100000000 := by
  show w.toBitVec.toInt = _
  rw [BitVec.toInt_eq_toNat_bmod]
  rfl

/-- Words are subtracted as the numbers they are, up to 2^32. -/
theorem toInt_sub (v w : Word) : (v - w).toInt = (v.toInt - w.toInt).bmod 0x100000000 := by
  show (v.toBitVec - w.toBitVec).toInt = _
  rw [BitVec.toInt_sub]
  rfl

/-- A word is negative if its top bit is set. -/
theorem toInt_neg_iff (w : Word) : w.toInt < 0 ↔ 0x80000000 ≤ w.toNat := by
  have hlt := w.toNat_lt
  rw [toInt_eq_bmod, Int.bmod_def]
  split <;> omega

theorem ofInt_natCast (n : Nat) : UInt32.ofInt n = UInt32.ofNat n := by
  unfold UInt32.ofInt
  rw [← UInt32.toNat_inj, UInt32.toNat_ofNat', UInt32.toNat_ofNat']
  omega

/-- A word is the one its two's-complement number wraps to. -/
theorem ofInt_toInt (w : Word) : UInt32.ofInt w.toInt = w := by
  have hlt := w.toNat_lt
  unfold UInt32.ofInt
  rw [toInt_eq_bmod, ← UInt32.toNat_inj, UInt32.toNat_ofNat', Int.bmod_def]
  split <;> omega

theorem toNat_ofInt (z : Int) : ((UInt32.ofInt z).toNat : Int) = z % 0x100000000 := by
  unfold UInt32.ofInt
  rw [UInt32.toNat_ofNat']
  omega

theorem toInt_ofInt (z : Int) : toInt (UInt32.ofInt z) = z.bmod 0x100000000 := by
  rw [toInt_eq_bmod, toNat_ofInt]
  exact Int.emod_bmod z 0x100000000

theorem toInt_inj {v w : Word} : v.toInt = w.toInt ↔ v = w := by
  refine ⟨fun h => ?_, congrArg _⟩
  rw [← ofInt_toInt v, h, ofInt_toInt]

/-- A product of two words has 64 bits. -/
theorem toNat_mul_lt (v w : Word) : v.toNat * w.toNat < 2 ^ 64 := by
  have hmul : v.toNat * w.toNat < 2 ^ 32 * 2 ^ 32 := Nat.mul_lt_mul'' v.toNat_lt w.toNat_lt
  omega

/-- With signs, one of them is left over. -/
theorem natAbs_mul_le (v w : Word) : (v.toInt * w.toInt).natAbs ≤ 2 ^ 62 := by
  have hv := v.toInt_bounds
  have hw := w.toInt_bounds
  have hmul : v.toInt.natAbs * w.toInt.natAbs ≤ 2 ^ 31 * 2 ^ 31 :=
    Nat.mul_le_mul (by omega) (by omega)
  exact Int.natAbs_mul .. ▸ hmul

/-- A factor common to a number and its modulus. -/
theorem mul_bmod_mul (a : Int) {m k : Nat} (hm : 2 ∣ m) (hk : 0 < k) :
    (a * k).bmod (m * k) = a.bmod m * k := by
  obtain ⟨p, rfl⟩ := hm
  have hk' : (0 : Int) < k := by omega
  have hhalf : (((2 * p * k : Nat) : Int) + 1) / 2 = p * k := by
    rw [Nat.mul_assoc]
    push_cast
    omega
  have hhalf' : (((2 * p : Nat) : Int) + 1) / 2 = p := by omega
  have hmod : a * k % ((2 * p * k : Nat) : Int) = a % ((2 * p : Nat) : Int) * k := by
    rw [Int.natCast_mul, Int.mul_comm a, Int.mul_comm _ (k : Int), Int.mul_emod_mul_of_pos _ _ hk',
      Int.mul_comm]
  rw [Int.bmod_def, Int.bmod_def, hhalf, hhalf', hmod]
  by_cases h : a % ((2 * p : Nat) : Int) < p
  · rw [if_pos h, if_pos (Int.mul_lt_mul_of_pos_right h hk')]
  · have hnot : ¬ a % ((2 * p : Nat) : Int) * k < p * k := fun h' =>
      h (Int.lt_of_mul_lt_mul_right h' (Int.le_of_lt hk'))
    rw [if_neg h, if_neg hnot, Int.sub_mul, ← Int.natCast_mul]

/-- **Sign extension.** The low bits are widened to the two's-complement number
they are. -/
theorem toInt_signExtend {bits : Nat} (h1 : 1 ≤ bits) (h32 : bits ≤ 32) (w : Word) :
    (signExtend bits w).toInt = (w.toNat : Int).bmod (1 <<< bits) := by
  obtain ⟨gap, hgap⟩ : ∃ gap, 32 - bits = gap := ⟨_, rfl⟩
  have hlt : gap < 32 := by omega
  have hleft : ∀ g < 32, ((UInt32.ofNat g).toBitVec % 32).toNat = g := by decide
  have hright : ∀ g < 32, ((UInt32.ofNat g).toBitVec.smod 32).toNat = g := by decide
  have hmod : (2 : Nat) ^ 32 = 2 ^ bits * 2 ^ gap := by
    rw [← Nat.pow_add, ← hgap, Nat.add_sub_cancel' h32]
  have heven : 2 ∣ 2 ^ bits := Nat.pow_dvd_pow 2 h1
  have hpos : (2 ^ gap : Nat) ≠ (0 : Int) := by
    have := Nat.two_pow_pos gap
    omega
  unfold signExtend
  rw [hgap, Nat.one_shiftLeft]
  show ((w.toBitVec <<< ((UInt32.ofNat gap).toBitVec % 32)).sshiftRight'
    ((UInt32.ofNat gap).toBitVec.smod 32)).toInt = _
  rw [BitVec.sshiftRight', hright gap hlt, BitVec.toInt_sshiftRight, BitVec.shiftLeft_eq', hleft gap hlt,
    BitVec.toInt_shiftLeft, Nat.shiftLeft_eq, Int.natCast_mul, hmod,
    mul_bmod_mul _ heven (Nat.two_pow_pos gap), Int.shiftRight_eq_div_pow]
  exact Int.mul_ediv_cancel _ hpos

/-! ### Displacements -/

/-- The displacement of a branch is four times the signed number in its field. -/
theorem branchOffset_eq (w : Word) :
    w.branchOffset = UInt32.ofInt (4 * (w.toNat : Int).bmod 0x400000) := by
  have hfield : (w.disp22.toNat : Int).bmod 0x400000 = (w.toNat : Int).bmod 0x400000 := by
    rw [toNat_disp22]
    exact Int.emod_bmod (w.toNat : Int) 0x400000
  have hext : (signExtend 22 w.disp22).toInt = (w.toNat : Int).bmod 0x400000 :=
    (toInt_signExtend (by decide) (by decide) w.disp22).trans hfield
  rw [branchOffset, ← hext, UInt32.ofInt_mul, ofInt_toInt, UInt32.mul_comm]
  rfl

/-- The displacement of a call is four times the number in its field. -/
theorem toNat_callOffset (w : Word) : w.callOffset.toNat = 4 * (w.toNat % 0x40000000) := by
  have h4 : (4 : Word).toNat = 4 := rfl
  rw [callOffset, UInt32.toNat_mul, toNat_disp30, h4]
  omega

end Word
end SparcIU
