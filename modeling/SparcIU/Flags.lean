/-
# Texts of flag sets

A word is written as the names of its flags, separated by `|`: a flag is named
when all bits of its mask are set, and the bits that no named flag covers follow
as one hexadecimal number. A word without bits is the empty text. The reader
takes names and numbers in any order and number, with blanks around them, and
joins their bits.

Key definitions: `Flags.pieces`, `Flags.text`, `Flags.ofText?`.
-/
import SparcIU.Word
import SparcIU.Text.Numeral
import SparcIU.Text.Blank

namespace SparcIU

/-- Names, each with the bits it stands for. -/
abbrev Flags := List (String × Word)

namespace Flags

/-! ### Writing -/

/-- The flags of the table whose bits are all set. -/
def named (t : Flags) (w : Word) : Flags := t.filter fun f => w &&& f.2 = f.2

/-- The bits of all flags together. -/
def union (t : Flags) : Word := t.foldr (fun f w => f.2 ||| w) 0

/-- The bits that no named flag covers. -/
def leftover (t : Flags) (w : Word) : Word := w &&& ~~~(t.named w).union

/-- The pieces of the text of a word: the names, then what is left. -/
def pieces (t : Flags) (w : Word) : Flags :=
  t.named w ++
    if t.leftover w = 0 then [] else [(Numeral.hex (t.leftover w).toNat, t.leftover w)]

/-- The text of a row of pieces. -/
def text (ps : Flags) : String := " | ".intercalate (ps.map Prod.fst)

/-! ### Reading -/

/-- The texts between the separators. -/
def splitBars : List Char → List (List Char)
  | [] => [[]]
  | c :: cs =>
    if c = '|' then [] :: splitBars cs
    else match splitBars cs with
      | [] => [[c]]
      | piece :: rest => (c :: piece) :: rest

/-- The bits of one piece: a hexadecimal number after `0x`, or the name of a
flag. -/
def pieceBits (t : Flags) (cs : List Char) : Option Word :=
  match cs with
  | '0' :: 'x' :: digits =>
    match Numeral.readNat 16 0x100000000 digits with
    | .ok n => some (UInt32.ofNat n)
    | .error _ => none
  | _ => t.lookup (String.ofList cs)

/-- The bits of all pieces together; an empty piece is none. -/
def joinBits (t : Flags) : List (List Char) → Option Word
  | [] => some 0
  | piece :: rest =>
    match t.pieceBits (Text.trim piece), joinBits t rest with
    | some a, some b => some (a ||| b)
    | _, _ => none

/-- The word a text describes. -/
def ofText? (t : Flags) (s : String) : Option Word :=
  if (Text.trim s.toList).isEmpty then some 0 else t.joinBits (splitBars s.toList)

end Flags
end SparcIU
