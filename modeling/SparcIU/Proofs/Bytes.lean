/-
# Words as rows of bytes

A word is four bytes, the most significant first: its halves are made of two of them,
a byte or a half that is replaced replaces these and no others, and a shift to the
right brings any one of them to the end. A row of bytes stands for a number
(`bigEndian`), which a load widens to a word with zeros or with the sign.

Key definitions: `bigEndian`, `zeroExtended`, `signExtended`.
Key theorems: `Word.bytes_ofBytes`, `Word.bytes_setByte`, `Word.shift_byte`,
`zeroExtended_bytes`, `signExtended_singleton`, `signExtended_half`.
-/
import SparcIU.Proofs.Words

namespace SparcIU
namespace Word

/-! ### The bytes of a word -/

theorem toNat_ofBytes (a b c d : UInt8) : (ofBytes a b c d).toNat =
    a.toNat * 0x1000000 + b.toNat * 0x10000 + c.toNat * 0x100 + d.toNat := by
  have ha := a.toNat_lt
  have hb := b.toNat_lt
  have hc := c.toNat_lt
  have hd := d.toNat_lt
  have h24 : (0x1000000 : UInt32).toNat = 0x1000000 := rfl
  have h16 : (0x10000 : UInt32).toNat = 0x10000 := rfl
  have h8 : (0x100 : UInt32).toNat = 0x100 := rfl
  unfold ofBytes
  simp only [UInt32.toNat_add, UInt32.toNat_mul, UInt8.toNat_toUInt32, h24, h16, h8]
  omega

theorem toNat_byte_zero (w : Word) : (w.byte 0).toNat = w.toNat / 0x1000000 % 0x100 := by
  show (w / 0x1000000).toUInt8.toNat = _
  rw [UInt32.toNat_toUInt8, UInt32.toNat_div]
  rfl

theorem toNat_byte_one (w : Word) : (w.byte 1).toNat = w.toNat / 0x10000 % 0x100 := by
  show (w / 0x10000).toUInt8.toNat = _
  rw [UInt32.toNat_toUInt8, UInt32.toNat_div]
  rfl

theorem toNat_byte_two (w : Word) : (w.byte 2).toNat = w.toNat / 0x100 % 0x100 := by
  show (w / 0x100).toUInt8.toNat = _
  rw [UInt32.toNat_toUInt8, UInt32.toNat_div]
  rfl

theorem toNat_byte_three (w : Word) : (w.byte 3).toNat = w.toNat % 0x100 := by
  show w.toUInt8.toNat = _
  rw [UInt32.toNat_toUInt8]

/-- The bytes a word was made of. -/
theorem bytes_ofBytes (a b c d : UInt8) : ByteOrder.big.bytes (ofBytes a b c d) = [a, b, c, d] := by
  have ha := a.toNat_lt
  have hb := b.toNat_lt
  have hc := c.toNat_lt
  have hd := d.toNat_lt
  simp only [ByteOrder.bytes, List.cons.injEq, ← UInt8.toNat_inj, toNat_byte_zero, toNat_byte_one,
    toNat_byte_two, toNat_byte_three, toNat_ofBytes, and_true]
  omega

/-- A word with one byte replaced, byte by byte. -/
theorem bytes_setByte (w : Word) (lane : Fin 4) (b : UInt8) :
    ByteOrder.big.bytes (w.setByte lane b) = (ByteOrder.big.bytes w).set lane.val b := by
  match lane with
  | 0 | 1 | 2 | 3 => exact bytes_ofBytes ..

theorem toNat_upper (w : Word) : (w.half true).toNat = w.toNat / 0x10000 := by
  have hlt := w.toNat_lt
  have h16 : (0x10000 : UInt32).toNat = 0x10000 := rfl
  show (w / 0x10000).toUInt16.toNat = w.toNat / 0x10000
  rw [UInt32.toNat_toUInt16, UInt32.toNat_div, h16]
  omega

theorem toNat_lower (w : Word) : (w.half false).toNat = w.toNat % 0x10000 := UInt32.toNat_toUInt16 w

theorem setHalf_upper (w v : Word) :
    w.setHalf true v.toUInt16 = ofBytes (v.byte 2) (v.byte 3) (w.byte 2) (w.byte 3) := by
  have h16 : (0x10000 : UInt32).toNat = 0x10000 := rfl
  show v.toUInt16.toUInt32 * 0x10000 + (w.half false).toUInt32 = _
  rw [← UInt32.toNat_inj, toNat_ofBytes, UInt32.toNat_add, UInt32.toNat_mul, UInt16.toNat_toUInt32,
    UInt16.toNat_toUInt32, UInt32.toNat_toUInt16, toNat_lower, h16]
  simp only [toNat_byte_two, toNat_byte_three]
  omega

theorem setHalf_lower (w v : Word) :
    w.setHalf false v.toUInt16 = ofBytes (w.byte 0) (w.byte 1) (v.byte 2) (v.byte 3) := by
  have hlt := w.toNat_lt
  have h16 : (0x10000 : UInt32).toNat = 0x10000 := rfl
  show (w.half true).toUInt32 * 0x10000 + v.toUInt16.toUInt32 = _
  rw [← UInt32.toNat_inj, toNat_ofBytes, UInt32.toNat_add, UInt32.toNat_mul, UInt16.toNat_toUInt32,
    UInt16.toNat_toUInt32, UInt32.toNat_toUInt16, toNat_upper, h16]
  simp only [toNat_byte_zero, toNat_byte_one, toNat_byte_two, toNat_byte_three]
  omega

/-- The bytes of a word put together again. -/
theorem ofBytes_byte (w : Word) : ofBytes (w.byte 0) (w.byte 1) (w.byte 2) (w.byte 3) = w := by
  have hlt := w.toNat_lt
  rw [← UInt32.toNat_inj, toNat_ofBytes, toNat_byte_zero, toNat_byte_one, toNat_byte_two,
    toNat_byte_three]
  omega

/-- The byte at an address in the word around it, by a shift. -/
theorem shift_byte (a w : Word) :
    some (w >>> ((3 - a % 4) * 8)).toUInt8 = (ByteOrder.big.bytes w)[a.toNat % 4]? := by
  have hmod : (a % 4).toNat = a.toNat % 4 := UInt32.toNat_mod ..
  have hcases : a.toNat % 4 = 0 ∨ a.toNat % 4 = 1 ∨ a.toNat % 4 = 2 ∨ a.toNat % 4 = 3 := by omega
  rcases hcases with h | h | h | h
  all_goals
    have ha : a % 4 = UInt32.ofNat (a.toNat % 4) := by
      rw [← UInt32.toNat_inj, hmod, UInt32.toNat_ofNat']
      omega
    rw [ha, h]
    refine congrArg some ?_
    rw [← UInt8.toNat_inj, UInt32.toNat_toUInt8, UInt32.toNat_shiftRight]
  · rw [toNat_byte_zero]
    exact congrArg (· % 0x100) (Nat.shiftRight_eq_div_pow _ 24)
  · rw [toNat_byte_one]
    exact congrArg (· % 0x100) (Nat.shiftRight_eq_div_pow _ 16)
  · rw [toNat_byte_two]
    exact congrArg (· % 0x100) (Nat.shiftRight_eq_div_pow _ 8)
  · rw [toNat_byte_three]
    rfl

end Word

/-- The bytes of a stored word make up the word, in either order. -/
theorem ByteOrder.word_bytes (o : ByteOrder) (w : Word) :
    ∃ a b c d, o.bytes w = [a, b, c, d] ∧ o.word a b c d = w := by
  cases o with
  | big => exact ⟨_, _, _, _, rfl, w.ofBytes_byte⟩
  | little => exact ⟨_, _, _, _, rfl, w.ofBytes_byte⟩

/-- The bytes that a word was stored as. -/
theorem ByteOrder.bytes_word (o : ByteOrder) (a b c d : UInt8) :
    o.bytes (o.word a b c d) = [a, b, c, d] := by
  cases o with
  | big => exact Word.bytes_ofBytes a b c d
  | little => exact congrArg List.reverse (Word.bytes_ofBytes d c b a)

theorem ByteOrder.length_bytes (o : ByteOrder) (w : Word) : (o.bytes w).length = 4 := by
  cases o <;> rfl

/-! ### The number bytes stand for -/

/-- The number of a row of bytes, the most significant first. -/
def bigEndian (bs : List UInt8) : Nat := bs.foldl (fun n b => n * 0x100 + b.toNat) 0

/-- The number of a row of at most four bytes as a word. -/
def zeroExtended (bs : List UInt8) : Word := UInt32.ofNat (bigEndian bs)

/-- The two's-complement number of a row of at most four bytes as a word. -/
def signExtended (bs : List UInt8) : Word :=
  UInt32.ofInt ((bigEndian bs : Int).bmod (0x100 ^ bs.length))

theorem bigEndian_bytes (w : Word) : bigEndian (ByteOrder.big.bytes w) = w.toNat := by
  have hlt := w.toNat_lt
  simp only [ByteOrder.bytes, bigEndian, List.foldl_cons, List.foldl_nil, Word.toNat_byte_zero,
    Word.toNat_byte_one, Word.toNat_byte_two, Word.toNat_byte_three]
  omega

theorem bigEndian_upper (w : Word) : bigEndian [w.byte 0, w.byte 1] = (w.half true).toNat := by
  have hlt := w.toNat_lt
  simp only [bigEndian, List.foldl_cons, List.foldl_nil, Word.toNat_byte_zero, Word.toNat_byte_one,
    Word.toNat_upper]
  omega

theorem bigEndian_lower (w : Word) : bigEndian [w.byte 2, w.byte 3] = (w.half false).toNat := by
  simp only [bigEndian, List.foldl_cons, List.foldl_nil, Word.toNat_byte_two, Word.toNat_byte_three,
    Word.toNat_lower]
  omega

theorem bigEndian_singleton (b : UInt8) : bigEndian [b] = b.toNat := by
  simp only [bigEndian, List.foldl_cons, List.foldl_nil, Nat.zero_mul, Nat.zero_add]

theorem zeroExtended_bytes (w : Word) : zeroExtended (ByteOrder.big.bytes w) = w := by
  rw [zeroExtended, bigEndian_bytes, UInt32.ofNat_toNat]

theorem zeroExtended_singleton (b : UInt8) : zeroExtended [b] = b.toUInt32 := by
  rw [zeroExtended, bigEndian_singleton, Word.toUInt32_eq_ofNat]

/-- Two bytes that make up a half, widened with zeros. -/
theorem zeroExtended_half {h : UInt16} {bs : List UInt8} (hbs : bigEndian bs = h.toNat) :
    zeroExtended bs = h.toUInt32 := by
  have hlt := h.toNat_lt
  rw [zeroExtended, hbs, ← UInt32.toNat_inj, UInt32.toNat_ofNat', UInt16.toNat_toUInt32]
  omega

/-- A number that is widened with its sign is the two's-complement number it was. -/
theorem ofInt_bmod {bits : Nat} (h1 : 1 ≤ bits) (h32 : bits ≤ 32) (w : Word) :
    UInt32.ofInt ((w.toNat : Int).bmod (1 <<< bits)) = Word.signExtend bits w := by
  rw [← Word.toInt_signExtend h1 h32, Word.ofInt_toInt]

theorem signExtended_singleton (b : UInt8) : signExtended [b] = Word.signExtend 8 b.toUInt32 := by
  rw [← ofInt_bmod (by decide) (by decide), UInt8.toNat_toUInt32, signExtended, bigEndian_singleton]
  rfl

/-- Two bytes that make up a half, widened with its sign. -/
theorem signExtended_half {h : UInt16} {bs : List UInt8} (hbs : bigEndian bs = h.toNat)
    (hlen : bs.length = 2) : signExtended bs = Word.signExtend 16 h.toUInt32 := by
  rw [← ofInt_bmod (by decide) (by decide), UInt16.toNat_toUInt32, signExtended, hbs, hlen]
  rfl

end SparcIU
