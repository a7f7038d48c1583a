/-
# Writing JSON

The compact form has no blanks; the indented form has a line for each item,
two blanks deeper than its container, and one blank after a colon. Empty
containers are a pair of brackets in both. The two forms differ in nothing but
their blanks, so one writer takes them from a layout.

Key definitions: `Json.Layout`, `Json.compact`, `Json.indented`.
-/
import SparcIU.Json
import SparcIU.Text.Numeral

namespace SparcIU
namespace Json

/-! ### Texts -/

/-- A character inside quotes: quotes, backslashes and control characters are
escaped. -/
def escape (c : Char) : List Char :=
  if c = '"' then ['\\', '"']
  else if c = '\\' then ['\\', '\\']
  else if c.toNat = 8 then ['\\', 'b']
  else if c.toNat = 9 then ['\\', 't']
  else if c.toNat = 10 then ['\\', 'n']
  else if c.toNat = 12 then ['\\', 'f']
  else if c.toNat = 13 then ['\\', 'r']
  else if c.toNat < 32 then
    ['\\', 'u', '0', '0', Nat.digitChar (c.toNat / 16), Nat.digitChar (c.toNat % 16)]
  else [c]

/-- A text in quotes. -/
def quoted (s : String) : List Char := '"' :: s.toList.flatMap escape ++ ['"']

/-! ### Layouts -/

/-- Where a writer puts blanks: in front of the items of a level and of the bracket behind
them, and between a key and its value. -/
structure Layout where
  lineBreak : Nat → List Char
  gap : List Char
  spaces_lineBreak : ∀ level, Spaces (lineBreak level)
  spaces_gap : Spaces gap

namespace Layout

/-- No blanks. -/
def tight : Layout where
  lineBreak _ := []
  gap := []
  spaces_lineBreak _ := List.forall_mem_nil _
  spaces_gap := List.forall_mem_nil _

/-- A line for each item, and two blanks for each level. -/
def lines : Layout where
  lineBreak level := '\n' :: List.replicate (2 * level) ' '
  gap := [' ']
  spaces_lineBreak level := by
    refine List.forall_mem_cons.mpr ⟨rfl, fun c hc => ?_⟩
    rw [List.eq_of_mem_replicate hc]
    rfl
  spaces_gap := by decide

variable (L : Layout)

mutual

/-- A value with the blanks of the layout. -/
def write (level : Nat) : Json → List Char
  | null => ['n', 'u', 'l', 'l']
  | bool true => ['t', 'r', 'u', 'e']
  | bool false => ['f', 'a', 'l', 's', 'e']
  | natural n => Nat.toDigits 10 n
  | otherNumber => ['0', '.', '0']
  | text s => quoted s
  | array [] => ['[', ']']
  | array (j :: js) =>
    '[' :: [','].intercalate (writeItems (level + 1) (j :: js)) ++ L.lineBreak level ++ [']']
  | object [] => ['\x7b', '\x7d']
  | object (m :: ms) =>
    '\x7b' :: [','].intercalate (writeMembers (level + 1) (m :: ms)) ++ L.lineBreak level ++ ['\x7d']
  | unreadable => []

/-- The texts of the items, each on its own line. -/
def writeItems (level : Nat) : List Json → List (List Char)
  | [] => []
  | j :: js => (L.lineBreak level ++ write level j) :: writeItems level js

/-- The texts of the members, each on its own line. -/
def writeMembers (level : Nat) : List (String × Json) → List (List Char)
  | [] => []
  | (key, j) :: ms =>
    (L.lineBreak level ++ quoted key ++ ':' :: (L.gap ++ write level j)) :: writeMembers level ms

end

end Layout

/-- The value without blanks. -/
def compact (j : Json) : String := String.ofList (Layout.tight.write 0 j)

/-- The value with a line for each item. -/
def indented (j : Json) : String := String.ofList (Layout.lines.write 0 j)

end Json
end SparcIU
