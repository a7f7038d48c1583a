/-
# Listings

A range of an image is listed word by word from the word that holds its start,
up to its end or to the first word that is not mapped. A row is shown as text,
if wanted with the bytes of the word as they stand in the file, or as JSON. The
table of segments has columns of fixed width.

Key definitions: `Row`, `Image.rows`, `Row.line`, `Row.toJson`,
`Image.segmentTable`.
-/
import SparcIU.Image
import SparcIU.Instruction.OfWord
import SparcIU.Instruction.Assembly
import SparcIU.Json.Writer

namespace SparcIU

/-- A word of an image with its address. -/
structure Row where
  addr : Word
  word : Word
  deriving DecidableEq, Repr

namespace Row

/-- The instruction at the row, with the addresses of its targets. -/
def text (r : Row) : String := (Instr.ofWord r.word).textAt r.addr

/-- The bytes of the word as the file has them, each with a blank after it. -/
def bytesText (r : Row) (order : ByteOrder) : String :=
  String.join ((order.bytes r.word).map fun b => Numeral.paddedDigits 2 b.toNat ++ " ")

/-- The row as a line of text, if wanted with its bytes. -/
def line (r : Row) (showBytes : Bool) (order : ByteOrder) : String :=
  Numeral.hexPadded 8 r.addr.toNat ++ ": "
    ++ (if showBytes then r.bytesText order ++ "  " else "") ++ r.text ++ "\n"

def toJson (r : Row) : Json :=
  .object [("addr", .natural r.addr.toNat), ("raw", .natural r.word.toNat), ("text", .text r.text)]

end Row

namespace Image

/-- The rows from address `pc` to below `stop`, or to the end of the address space. -/
def rowsFrom (img : Image) (stop pc : Word) : List Row :=
  if pc < stop then
    match img.readWord pc with
    | none => []
    | some word =>
      ⟨pc, word⟩ ::
        if pc.toNat + 4 < 0x100000000 then rowsFrom img stop (pc + 4) else []
  else []
termination_by stop.toNat - pc.toNat
decreasing_by
  rename_i hlt hspace
  rw [UInt32.lt_iff_toNat_lt] at hlt
  rw [Word.toNat_add_four hspace]
  omega

/-- The rows of a range. -/
def rows (img : Image) (start stop : Word) : List Row := img.rowsFrom stop start.alignDown

/-- A text filled up with blanks to a width. -/
def padRight (width : Nat) (s : String) : String :=
  s ++ String.ofList (List.replicate (width - s.length) ' ')

/-- One line of the table of segments. -/
def tableLine (name start stop perms kind : String) : String :=
  padRight 10 name ++ " " ++ padRight 10 start ++ " " ++ padRight 10 stop ++ " "
    ++ padRight 6 perms ++ " " ++ padRight 6 kind ++ "\n"

/-- The table of segments with its heading. -/
def segmentTable (img : Image) : String :=
  tableLine "name" "start" "end" "perms" "kind"
    ++ String.join (img.segments.map fun s =>
      tableLine s.name (Numeral.hexPadded 8 s.base.toNat) (Numeral.hexPadded 8 s.stop.toNat)
        s.perms s.kind)

end Image
end SparcIU
