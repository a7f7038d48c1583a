/-
# Machine arithmetic as arithmetic of the integers

Differences, products and quotients of words are computed in 64 bits, with casts
between words and double words of either kind. A difference or a product of two
words fits in 64 bits, so nothing wraps there; of the quotients only that of the
least double word by -1 does not fit, and it is clamped like every other one that is
too large for a word. So each operation is the one of the integers, followed by a
single cast back.

Key definitions: `Arith.value`, `Arith.range`.
Key theorems: `Arith.sub_eq`, `Arith.product_eq`, `Arith.quotient_eq_clamped`.
-/
import Mathlib.Algebra.Group.Int.Defs
import Mathlib.Algebra.Group.Nat.Defs
import Mathlib.Data.Nat.Bitwise
import SparcIU.Arithmetic
import SparcIU.Proofs.Words

namespace SparcIU
namespace Arith

/-- A word as the integer an instruction takes it for. -/
def value (signed : Bool) (w : Word) : Int := if signed then w.toInt else w.toNat

/-- The least and the greatest value of a word. -/
def range (signed : Bool) : Int × Int :=
  if signed then (-0x80000000, 0x7fffffff) else (0, 0xffffffff)

/-! ### Casts -/

theorem toInt_widened (w : Word) : w.toInt32.toInt64.toInt = w.toInt := Int32.toInt_toInt64 _

theorem toInt64_eq_bmod (x : UInt64) : x.toInt64.toInt = (x.toNat : Int).bmod 0x10000000000000000 := by
  show x.toBitVec.toInt = _
  rw [BitVec.toInt_eq_toNat_bmod]
  rfl

theorem toNat_toUInt64 (x : Int64) : (x.toUInt64.toNat : Int) = x.toInt % 0x10000000000000000 := by
  have hlt := x.toUInt64.toNat_lt
  have hbmod : x.toInt = (x.toUInt64.toNat : Int).bmod 0x10000000000000000 := toInt64_eq_bmod x.toUInt64
  rw [hbmod, Int.bmod_def]
  split <;> omega

/-- The low word of a double word is the one its number wraps to. -/
theorem lowWord_eq {x : UInt64} {z : Int} (h : (x.toNat : Int) = z % 0x10000000000000000) :
    x.toUInt32 = UInt32.ofInt z := by
  have hz := Word.toNat_ofInt z
  rw [← UInt32.toNat_inj, UInt64.toNat_toUInt32]
  omega

theorem highWord_eq {x : UInt64} {z : Int} (h : (x.toNat : Int) = z % 0x10000000000000000) :
    (x >>> 32).toUInt32 = UInt32.ofInt (z / 0x100000000) := by
  have hz := Word.toNat_ofInt (z / 0x100000000)
  have hshift : (x >>> 32).toNat = x.toNat / 0x100000000 := by
    rw [UInt64.toNat_shiftRight, Nat.shiftRight_eq_div_pow]
    rfl
  rw [← UInt32.toNat_inj, UInt64.toNat_toUInt32, hshift]
  omega

/-! ### Differences -/

variable (a b : Word)

/-- The difference of two words has 64 bits. -/
theorem toInt_wide : (a.toInt32.toInt64 - b.toInt32.toInt64).toInt = a.toInt - b.toInt := by
  have ha := a.toInt_bounds
  have hb := b.toInt_bounds
  rw [Int64.toInt_sub, toInt_widened, toInt_widened, Int.bmod_eq_of_le] <;> omega

/-- Its low word is the difference of the words. -/
theorem lowWord_wide : (a.toInt32.toInt64 - b.toInt32.toInt64).toUInt64.toUInt32 = a - b := by
  have hwide := toNat_toUInt64 (a.toInt32.toInt64 - b.toInt32.toInt64)
  rw [lowWord_eq hwide, toInt_wide, ← Word.toInt_inj, Word.toInt_ofInt, Word.toInt_sub]

theorem toNat_borrowed :
    ((a.toUInt64 ||| 0x100000000) - b.toUInt64).toNat = 0x100000000 + a.toNat - b.toNat := by
  have ha := a.toNat_lt
  have hb := b.toNat_lt
  have hor : (a.toUInt64 ||| 0x100000000).toNat = 0x100000000 + a.toNat := by
    have hadd := Nat.two_pow_add_eq_or_of_lt ha 1
    rw [UInt64.toNat_or, UInt32.toNat_toUInt64, Nat.or_comm]
    exact hadd.symm
  rw [UInt64.toNat_sub_of_le, hor, UInt32.toNat_toUInt64]
  rw [UInt64.le_iff_toNat_le, hor, UInt32.toNat_toUInt64]
  omega

/-- The bit above a word is gone from the difference if a word was borrowed. -/
theorem borrow_eq :
    (((a.toUInt64 ||| 0x100000000) - b.toUInt64) &&& 0x100000000 == 0) = decide (a < b) := by
  have ha := a.toNat_lt
  have hb := b.toNat_lt
  have hmask : (0x100000000 : UInt64).toNat = 2 ^ 32 := rfl
  rw [Bool.eq_iff_iff, beq_iff_eq, decide_eq_true_iff, ← UInt64.toNat_inj, UInt64.toNat_and,
    toNat_borrowed, hmask, Nat.and_two_pow, Nat.testBit_eq_decide_div_mod_eq, UInt32.lt_iff_toNat_lt]
  show _ = 0 ↔ _
  by_cases hlt : a.toNat < b.toNat
  · have hbit : (0x100000000 + a.toNat - b.toNat) / 0x100000000 % 2 = 0 := by omega
    simp [hlt, hbit]
  · have hbit : (0x100000000 + a.toNat - b.toNat) / 0x100000000 % 2 = 1 := by omega
    simp [hlt, hbit]

/-- **A difference and its flags.** Overflow says that the signed difference is no word, carry
that the unsigned one is negative. -/
theorem sub_eq : sub a b =
    (a - b, .ofResult (a - b) (a.toInt - b.toInt != (a - b).toInt) (decide (a < b))) := by
  have hoverflow : (a.toInt32.toInt64 - b.toInt32.toInt64 != (a - b).toInt32.toInt64) =
      (a.toInt - b.toInt != (a - b).toInt) := by
    rw [Bool.eq_iff_iff, bne_iff_ne, bne_iff_ne, Ne, ← Int64.toInt_inj, toInt_wide, toInt_widened]
  unfold sub
  simp only [lowWord_wide, borrow_eq, hoverflow]

/-! ### Products -/

theorem toNat_product (signed : Bool) : ((if signed then smul a b else umul a b).toNat : Int) =
    value signed a * value signed b % 0x10000000000000000 := by
  cases signed with
  | false =>
    show ((a.toUInt64 * b.toUInt64).toNat : Int) = (a.toNat * b.toNat : Int) % _
    rw [UInt64.toNat_mul, UInt32.toNat_toUInt64, UInt32.toNat_toUInt64, ← Int.natCast_mul]
    rfl
  | true =>
    show (((a.toInt32.toInt64 * b.toInt32.toInt64).toUInt64.toNat : Nat) : Int) = a.toInt * b.toInt % _
    rw [toNat_toUInt64, Int64.toInt_mul, toInt_widened, toInt_widened]
    exact Int.bmod_emod ..

/-- **The two words of a product.** -/
theorem product_eq (signed : Bool) : product signed a b =
    (UInt32.ofInt (value signed a * value signed b / 0x100000000),
      UInt32.ofInt (value signed a * value signed b)) :=
  Prod.ext (highWord_eq (toNat_product a b signed)) (lowWord_eq (toNat_product a b signed))

/-! ### Quotients -/

theorem toNat_dividend (high low : Word) :
    (dividend high low).toNat = high.toNat * 0x100000000 + low.toNat := by
  have hhigh := high.toNat_lt
  have hshift : (high.toUInt64 <<< 32).toNat = 2 ^ 32 * high.toNat := by
    rw [UInt64.toNat_shiftLeft, UInt32.toNat_toUInt64, Nat.shiftLeft_eq]
    show high.toNat * 2 ^ 32 % 2 ^ 64 = _
    omega
  rw [dividend, UInt64.toNat_or, hshift, UInt32.toNat_toUInt64,
    ← Nat.two_pow_add_eq_or_of_lt low.toNat_lt]
  omega

theorem toInt_dividend (high low : Word) :
    (dividend high low).toInt64.toInt = high.toInt * 0x100000000 + low.toNat := by
  have hhigh := high.toNat_lt
  have hlow := low.toNat_lt
  rw [toInt64_eq_bmod, toNat_dividend, Word.toInt_eq_bmod, Int.bmod_def, Int.bmod_def]
  split <;> split <;> omega

/-- A checked quotient is that of the integers; there is none by zero, and none above the
greatest double word. -/
theorem checkedDiv_eq {x y : Int64} (hy : y ≠ 0) :
    (∃ q, checkedDiv x y = some q ∧ q.toInt = x.toInt.tdiv y.toInt) ∨
      (checkedDiv x y = none ∧ x.toInt.tdiv y.toInt = 2 ^ 63) := by
  unfold checkedDiv
  by_cases hx : x = Int64.minValue ∧ y = -1
  · obtain ⟨rfl, rfl⟩ := hx
    exact .inr ⟨rfl, by decide⟩
  · refine .inl ⟨x / y, if_neg (by simpa [hy] using hx), ?_⟩
    rcases not_and_or.mp hx with hx | hy
    · exact Int64.toInt_div_of_ne_left x y hx
    · exact Int64.toInt_div_of_ne_right x y hy

/-- An integer clamped to a word; the flag says that it was. -/
def clamped (signed : Bool) (q : Int) : Word × Bool :=
  if q < (range signed).1 then (UInt32.ofInt (range signed).1, true)
  else if (range signed).2 < q then (UInt32.ofInt (range signed).2, true)
  else (UInt32.ofInt q, false)

variable {b} (high low : Word)

theorem udiv_eq (hb : b ≠ 0) :
    udiv high low b = some (clamped false ((high.toNat * 0x100000000 + low.toNat) / b.toNat : Nat)) := by
  have hq : (dividend high low / b.toUInt64).toNat =
      (high.toNat * 0x100000000 + low.toNat) / b.toNat := by
    rw [UInt64.toNat_div, toNat_dividend, UInt32.toNat_toUInt64]
  have hlt := (dividend high low / b.toUInt64).toNat_lt
  have hword : (0xffffffff : UInt64).toNat = 0xffffffff := rfl
  have hrange : range false = (0, 0xffffffff) := rfl
  have hzero : ¬ (b == 0) = true := by simpa using hb
  rw [udiv, if_neg hzero, ← hq]
  simp only [clamped, hrange, UInt64.le_iff_toNat_le, hword]
  split
  · rw [if_neg (by omega), if_neg (by omega), lowWord_eq (z := (dividend high low / b.toUInt64).toNat)]
    omega
  · rw [if_neg (by omega), if_pos (by omega)]
    rfl

theorem sdiv_eq (hb : b ≠ 0) :
    sdiv high low b = some (clamped true ((high.toInt * 0x100000000 + low.toNat).tdiv b.toInt)) := by
  have hzero : ¬ (b == 0) = true := by simpa using hb
  have hwide : b.toInt32.toInt64 ≠ 0 := by
    intro h
    have hint := (toInt_widened b).symm.trans (congrArg Int64.toInt h)
    exact hb (Word.toInt_inj.mp hint)
  have hrange : range true = (-0x80000000, 0x7fffffff) := rfl
  have hleast : (-0x80000000 : Int64).toInt = -0x80000000 := by decide
  have hgreatest : (0x7fffffff : Int64).toInt = 0x7fffffff := by decide
  have hnull : (0 : Int64).toInt = 0 := by decide
  rw [sdiv, if_neg hzero, ← toInt_dividend, ← toInt_widened b]
  rcases checkedDiv_eq hwide (x := (dividend high low).toInt64) with ⟨q, hq, hexact⟩ | ⟨hnone, hexact⟩
  · rw [hq, ← hexact]
    simp only [clamped, hrange, Int64.le_iff_toInt_le, Int64.lt_iff_toInt_lt, hleast, hgreatest, hnull]
    split
    · rw [if_neg (by omega), if_neg (by omega), lowWord_eq (toNat_toUInt64 q)]
    · split
      · rw [if_neg (by omega), if_pos (by omega)]
        rfl
      · rw [if_pos (by omega)]
        rfl
  · -- the quotient that no double word holds is above every word
    rw [hnone, hexact]
    rfl

/-- **A quotient is the one of the integers**, rounded toward zero and clamped to a word. -/
theorem quotient_eq_clamped (hb : b ≠ 0) (signed : Bool) : quotient signed high low b =
    some (clamped signed ((value signed high * 0x100000000 + low.toNat).tdiv (value signed b))) := by
  cases signed with
  | false =>
    have hdiv : (value false high * 0x100000000 + low.toNat).tdiv (value false b) =
        ((high.toNat * 0x100000000 + low.toNat) / b.toNat : Nat) := (Int.ofNat_tdiv ..).symm
    rw [hdiv]
    exact udiv_eq high low hb
  | true => exact sdiv_eq high low hb

theorem quotient_zero (signed : Bool) : quotient signed high low 0 = none := by
  cases signed <;> rfl

end Arith
end SparcIU
