/-
# Words

Everything the integer unit holds or moves is a word of 32 bits, and its
arithmetic is modulo 2^32. A word is also read as a two's-complement number
(`toInt`), as four bytes with the most significant first (`byte`, `ofBytes`)
and as an address (`isAligned`, `alignDown`). A narrow field becomes a word by
repeating its top bit (`signExtend`).

Key definitions: `Word`, `Word.toInt`, `Word.signExtend`, `Word.ofBytes`,
`Word.byte`, `ByteOrder.word`, `ByteOrder.bytes`.
-/

namespace SparcIU

/-- A word of 32 bits. -/
abbrev Word := UInt32

/-- The four lanes of a word and the 32 values of a five-bit field start at
zero. -/
instance neZero_lanes : @NeZero Nat Zero.ofOfNat0 4 := Nat.instNeZeroSucc

instance neZero_fiveBits : @NeZero Nat Zero.ofOfNat0 32 := Nat.instNeZeroSucc

namespace Word

/-- The word as a two's-complement number. -/
def toInt (w : Word) : Int := w.toInt32.toInt

/-- The low `bits` bits of `w` as a two's-complement field, widened to a word.
The field is pushed against the top and pulled back with its sign. -/
def signExtend (bits : Nat) (w : Word) : Word :=
  let gap := UInt32.ofNat (32 - bits)
  ((w <<< gap).toInt32 >>> gap.toInt32).toUInt32

/-! ### Addresses -/

/-- A word address is a multiple of four. -/
def isAligned (w : Word) : Bool := w % 4 == 0

/-- The address of the word that holds the byte at `w`. -/
def alignDown (w : Word) : Word := w - w % 4

/-- Words next to each other that are both in the address space. -/
theorem toNat_add_four {w : Word} (h : w.toNat + 4 < 0x100000000) : (w + 4).toNat = w.toNat + 4 := by
  rw [UInt32.toNat_add]
  exact Nat.mod_eq_of_lt h

/-! ### Bytes, most significant first -/

/-- The word whose bytes are `a`, `b`, `c`, `d`, most significant first. -/
def ofBytes (a b c d : UInt8) : Word :=
  a.toUInt32 * 0x1000000 + b.toUInt32 * 0x10000 + c.toUInt32 * 0x100 + d.toUInt32

/-- Byte `lane` of the word; lane 0 is the most significant. -/
def byte (w : Word) (lane : Fin 4) : UInt8 :=
  match lane with
  | 0 => (w / 0x1000000).toUInt8
  | 1 => (w / 0x10000).toUInt8
  | 2 => (w / 0x100).toUInt8
  | 3 => w.toUInt8

/-- The word with byte `lane` replaced. -/
def setByte (w : Word) (lane : Fin 4) (b : UInt8) : Word :=
  match lane with
  | 0 => ofBytes b (w.byte 1) (w.byte 2) (w.byte 3)
  | 1 => ofBytes (w.byte 0) b (w.byte 2) (w.byte 3)
  | 2 => ofBytes (w.byte 0) (w.byte 1) b (w.byte 3)
  | 3 => ofBytes (w.byte 0) (w.byte 1) (w.byte 2) b

/-- The upper or the lower half of the word. -/
def half (w : Word) (upper : Bool) : UInt16 :=
  if upper then (w / 0x10000).toUInt16 else w.toUInt16

/-- The word with one half replaced. -/
def setHalf (w : Word) (upper : Bool) (h : UInt16) : Word :=
  if upper then h.toUInt32 * 0x10000 + (w.half false).toUInt32
  else (w.half true).toUInt32 * 0x10000 + h.toUInt32

/-- The lane of the byte at an address, within the word that holds it. -/
def lane (addr : Word) : Fin 4 := Fin.ofNat 4 addr.toNat

end Word

/-- The order in which a file or a memory stores the four bytes of a word. -/
inductive ByteOrder where
  | big
  | little
  deriving DecidableEq, Repr

namespace ByteOrder

/-- The word stored as the bytes `a`, `b`, `c`, `d`, lowest address first. -/
def word (o : ByteOrder) (a b c d : UInt8) : Word :=
  match o with
  | big => Word.ofBytes a b c d
  | little => Word.ofBytes d c b a

/-- The bytes of a stored word, lowest address first. -/
def bytes (o : ByteOrder) (w : Word) : List UInt8 :=
  match o with
  | big => [w.byte 0, w.byte 1, w.byte 2, w.byte 3]
  | little => [w.byte 3, w.byte 2, w.byte 1, w.byte 0]

/-- The name of the order in configurations and on command lines. -/
def label : ByteOrder → String
  | big => "big"
  | little => "little"

/-- The order with a name. -/
def ofLabel? (s : String) : Option ByteOrder :=
  if s = "big" then some big else if s = "little" then some little else none

end ByteOrder

end SparcIU
