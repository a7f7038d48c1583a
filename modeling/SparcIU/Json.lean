/-
# JSON values

The values of JSON as far as saved states, configurations and listings need
them. A natural number in plain digits is kept; all other numbers are only
known to be numbers. A value with an unpaired surrogate where a text stands is
`unreadable`: the grammar admits it, but no text is meant.

Key definitions: `Json`, `Json.Spaces`.
-/

namespace SparcIU

inductive Json where
  | null
  | bool (b : Bool)
  | natural (n : Nat)
  | otherNumber
  | text (s : String)
  | array (items : List Json)
  | object (members : List (String × Json))
  /-- A text with an unpaired surrogate, or an object with such a key. -/
  | unreadable
  deriving Repr

namespace Json

/-- The four blanks of JSON. -/
def isSpace (c : Char) : Bool := c == ' ' || c == '\n' || c == '\t' || c == '\r'

/-- The text consists of blanks. -/
def Spaces (cs : List Char) : Prop := ∀ c ∈ cs, isSpace c = true

instance (cs : List Char) : Decidable (Spaces cs) := List.decidableBAll _ cs

end Json
end SparcIU
