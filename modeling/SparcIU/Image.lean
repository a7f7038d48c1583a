/-
# Images

An image is a list of segments, each a row of bytes at an address. A byte is
read from the first segment that covers its address; a word takes four
consecutive bytes, wherever they lie. The end of a segment is an address too,
so it wraps at 2^32, and a segment that ends there covers nothing.

Key definitions: `Segment`, `Segment.stop`, `Image`, `Image.readByte`,
`Image.readWord`, `Image.ofFile`.
-/
import SparcIU.Word

namespace SparcIU

structure Segment where
  name : String := "segment0"
  base : Word
  bytes : ByteArray
  perms : String := "r-x"
  kind : String := "raw"

namespace Segment

/-- The address after the last byte. -/
def stop (s : Segment) : Word := s.base + UInt32.ofNat s.bytes.size

def covers (s : Segment) (addr : Word) : Bool := s.base ≤ addr && addr < s.stop

/-- The byte at an address that the segment covers. -/
def readByte (s : Segment) (addr : Word) : Option UInt8 := s.bytes[(addr - s.base).toNat]?

end Segment

structure Image where
  segments : List Segment
  order : ByteOrder

/-- Why a part of a file cannot be an image. -/
inductive ExtentError where
  | skip
  | length
  deriving DecidableEq, Repr

def ExtentError.message : ExtentError → String
  | skip => "--skip exceeds file size"
  | length => "--len exceeds remaining file size after skip"

namespace Image

def readByte (img : Image) (addr : Word) : Option UInt8 :=
  match img.segments.find? (·.covers addr) with
  | none => none
  | some s => s.readByte addr

def readWord (img : Image) (addr : Word) : Option Word :=
  match img.readByte addr, img.readByte (addr + 1), img.readByte (addr + 2),
    img.readByte (addr + 3) with
  | some a, some b, some c, some d => some (img.order.word a b c d)
  | _, _, _, _ => none

/-- The image of a file at `base`: its bytes after the first `skip` ones, up to
`length` of them if that is given. -/
def ofFile (file : ByteArray) (base : Word) (skip : Nat) (length : Option Nat)
    (order : ByteOrder) : Except ExtentError Image :=
  if file.size < skip then .error .skip
  else
    let bytes := file.extract skip file.size
    match length with
    | none => .ok ⟨[{ base, bytes }], order⟩
    | some n =>
      if bytes.size < n then .error .length
      else .ok ⟨[{ base, bytes := bytes.extract 0 n }], order⟩

end Image
end SparcIU
