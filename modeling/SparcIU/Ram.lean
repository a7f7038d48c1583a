/-
# Memory

A memory is a row of bytes that begins at a base address. The bus sees it as
aligned words, put together in the memory's byte order. An access below the
base, past the end or between words is refused and changes nothing.

Key definitions: `Ram`, `Ram.offset`, `Ram.read`, `Ram.write`, `Ram.loadImage`,
`Ram.bus`.
-/
import SparcIU.Dialogue
import SparcIU.ByteStore

namespace SparcIU

structure Ram where
  bytes : ByteStore
  base : Word
  order : ByteOrder

/-- Why an image does not fit into a memory. -/
inductive ImageError where
  | offsetOverflow
  | exceeds (length offset size : Nat)
  deriving DecidableEq, Repr

def ImageError.message : ImageError → String
  | offsetOverflow => "image offset overflows"
  | exceeds length offset size =>
    "image of " ++ length.repr ++ " bytes at offset " ++ Numeral.hex offset
      ++ " exceeds memory of " ++ size.repr ++ " bytes"

namespace Ram

/-- A memory of `size` zero bytes. -/
def zero (size : Nat) (base : Word) (order : ByteOrder) : Ram := ⟨.zeros size, base, order⟩

/-- The offset of the word at an address, or the reason there is none. -/
def offset (m : Ram) (addr : Word) : Except Fault Nat :=
  if !addr.isAligned then .error (.unaligned addr)
  else if addr < m.base then .error (.belowBase addr m.base)
  else
    let o := (addr - m.base).toNat
    if o + 4 ≤ m.bytes.size then .ok o else .error (.outOfRange addr)

/-- The word at an offset. -/
def wordAt (m : Ram) (o : Nat) : Word :=
  m.order.word (m.bytes.get o) (m.bytes.get (o + 1)) (m.bytes.get (o + 2)) (m.bytes.get (o + 3))

def read (m : Ram) (addr : Word) : Except Fault Word :=
  match m.offset addr with
  | .error e => .error e
  | .ok o => .ok (m.wordAt o)

def write (m : Ram) (addr v : Word) : Except Fault Unit × Ram :=
  match m.offset addr with
  | .error e => (.error e, m)
  | .ok o => (.ok (), { m with bytes := m.bytes.setAll o (m.order.bytes v) })

/-- Copies an image into the memory, `offset` bytes from its start. The end of
the image must be a 64-bit number and lie in the memory. -/
def loadImage (m : Ram) (offset : Nat) (image : ByteArray) : Except ImageError Ram :=
  if 0x10000000000000000 ≤ offset + image.size then .error .offsetOverflow
  else if m.bytes.size < offset + image.size then
    .error (.exceeds image.size offset m.bytes.size)
  else .ok { m with bytes := m.bytes.setAll offset image.data.toList }

/-- The memory as a device. -/
def bus : Bus Ram where
  read addr m := (m.read addr, m)
  write addr v m := m.write addr v

end Ram
end SparcIU
