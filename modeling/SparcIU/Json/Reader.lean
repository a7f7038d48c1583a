/-
# Reading JSON

The strict grammar: one value with blanks around it and nothing else. Numbers
have no leading zeros and no bare points, texts no raw control characters and
no escapes but the known ones. Containers may be nested to any depth.

Key definitions: `Json.value`, `Json.parse`.
-/
import SparcIU.Json
import SparcIU.Text.Numeral

namespace SparcIU
namespace Json

def skip (cs : List Char) : List Char := cs.dropWhile isSpace

/-! ### Texts -/

/-- What an escape or a plain character stands for: a character, or one half of
a surrogate pair. -/
inductive Piece where
  | char (c : Char)
  | surrogate (n : Nat)
  deriving DecidableEq, Repr

/-- The piece with a code of sixteen bits. -/
def Piece.ofCode (n : Nat) : Piece :=
  if 0xd800 ≤ n ∧ n < 0xe000 then surrogate n else char (Char.ofNat n)

/-- The character of an escape with one letter. -/
def shortEscape (c : Char) : Option Char :=
  if c = '"' ∨ c = '\\' ∨ c = '/' then some c
  else if c = 'b' then some (Char.ofNat 8)
  else if c = 'f' then some (Char.ofNat 12)
  else if c = 'n' then some '\n'
  else if c = 'r' then some '\r'
  else if c = 't' then some '\t'
  else none

/-- The value of four hexadecimal digits. -/
def fourDigits (a b c d : Char) : Option Nat :=
  match Numeral.digitValue 16 a, Numeral.digitValue 16 b, Numeral.digitValue 16 c,
    Numeral.digitValue 16 d with
  | some a, some b, some c, some d => some (((a * 16 + b) * 16 + c) * 16 + d)
  | _, _, _, _ => none

/-- Puts a piece in front of the pieces read after it. -/
def Piece.before (p : Piece) : Option (List Piece × List Char) → Option (List Piece × List Char)
  | some (ps, rest) => some (p :: ps, rest)
  | none => none

/-- The pieces up to the closing quote, and what follows it. -/
def pieces : List Char → Option (List Piece × List Char)
  | [] => none
  | '"' :: rest => some ([], rest)
  | '\\' :: 'u' :: a :: b :: c :: d :: rest =>
    match fourDigits a b c d with
    | some n => (Piece.ofCode n).before (pieces rest)
    | none => none
  | '\\' :: e :: rest =>
    match shortEscape e with
    | some c => (Piece.char c).before (pieces rest)
    | none => none
  | c :: rest => if c = '\\' ∨ c.toNat < 32 then none else (Piece.char c).before (pieces rest)

/-- The characters of the pieces, if every surrogate has its other half. -/
def joinPieces : List Piece → Option (List Char)
  | [] => some []
  | .char c :: ps => (joinPieces ps).map (c :: ·)
  | .surrogate high :: .surrogate low :: ps =>
    if high < 0xdc00 ∧ 0xdc00 ≤ low then
      (joinPieces ps).map (Char.ofNat (0x10000 + (high - 0xd800) * 0x400 + (low - 0xdc00)) :: ·)
    else none
  | .surrogate _ :: _ => none

/-! ### Numbers -/

/-- The digits in front, and the rest. -/
def digits : List Char → List Char × List Char
  | [] => ([], [])
  | c :: cs => if c.isDigit then ((c :: (digits cs).1), (digits cs).2) else ([], c :: cs)

/-- One digit or more. -/
def someDigits (cs : List Char) : Option (List Char × List Char) :=
  match digits cs with
  | ([], _) => none
  | (ds, rest) => some (ds, rest)

/-- The part before the point: no zero in front of other digits. -/
def wholePart : List Char → Option (List Char × List Char)
  | '0' :: rest => some (['0'], rest)
  | cs => someDigits cs

/-- The rest after the part behind the point, and whether there is one. -/
def fraction : List Char → Option (Bool × List Char)
  | '.' :: cs => (someDigits cs).map fun (_, rest) => (true, rest)
  | cs => some (false, cs)

/-- The rest after the exponent, and whether there is one. -/
def exponent : List Char → Option (Bool × List Char)
  | c :: cs =>
    if c = 'e' ∨ c = 'E' then
      let cs := match cs with
        | '+' :: cs => cs
        | '-' :: cs => cs
        | cs => cs
      (someDigits cs).map fun (_, rest) => (true, rest)
    else some (false, c :: cs)
  | [] => some (false, [])

/-- A number without a sign. -/
def unsigned (cs : List Char) : Option (Json × List Char) :=
  match wholePart cs with
  | none => none
  | some (ds, rest) =>
    match fraction rest with
    | none => none
    | some (broken, rest) =>
      match exponent rest with
      | none => none
      | some (scaled, rest) =>
        if broken || scaled then some (otherNumber, rest)
        else some (natural (Nat.ofDigitChars 10 ds 0), rest)

def number : List Char → Option (Json × List Char)
  | '-' :: cs => (unsigned cs).map fun (_, rest) => (otherNumber, rest)
  | cs => unsigned cs

/-! ### Values -/

/-- The value of a text that was read. -/
def ofPieces (ps : List Piece) : Json :=
  match joinPieces ps with
  | some cs => text (String.ofList cs)
  | none => unreadable

/-- The object with one more member in front. -/
def cons (key : List Piece) (j : Json) : Json → Json
  | object ms =>
    match joinPieces key with
    | some cs => object ((String.ofList cs, j) :: ms)
    | none => unreadable
  | _ => unreadable

mutual

/-- A value and what follows it. Every character takes at most two units of
fuel. -/
def value : Nat → List Char → Option (Json × List Char)
  | 0, _ => none
  | fuel + 1, cs =>
    match skip cs with
    | 'n' :: 'u' :: 'l' :: 'l' :: rest => some (null, rest)
    | 't' :: 'r' :: 'u' :: 'e' :: rest => some (bool true, rest)
    | 'f' :: 'a' :: 'l' :: 's' :: 'e' :: rest => some (bool false, rest)
    | '"' :: rest => (pieces rest).map fun (ps, rest) => (ofPieces ps, rest)
    | '[' :: rest =>
      match skip rest with
      | ']' :: rest => some (array [], rest)
      | _ => (items fuel rest).map fun (js, rest) => (array js, rest)
    | '\x7b' :: rest =>
      match skip rest with
      | '\x7d' :: rest => some (object [], rest)
      | _ => members fuel rest
    | cs => number cs

/-- The items up to the closing bracket; there is at least one. -/
def items : Nat → List Char → Option (List Json × List Char)
  | 0, _ => none
  | fuel + 1, cs =>
    match value fuel cs with
    | none => none
    | some (j, rest) =>
      match skip rest with
      | ',' :: rest => (items fuel rest).map fun (js, rest) => (j :: js, rest)
      | ']' :: rest => some ([j], rest)
      | _ => none

/-- The members up to the closing brace; there is at least one. -/
def members : Nat → List Char → Option (Json × List Char)
  | 0, _ => none
  | fuel + 1, cs =>
    match skip cs with
    | '"' :: rest =>
      match pieces rest with
      | none => none
      | some (key, rest) =>
        match skip rest with
        | ':' :: rest =>
          match value fuel rest with
          | none => none
          | some (j, rest) =>
            match skip rest with
            | ',' :: rest => (members fuel rest).map fun (o, rest) => (cons key j o, rest)
            | '\x7d' :: rest => some (cons key j (object []), rest)
            | _ => none
        | _ => none
    | _ => none

end

/-- The value a text describes. -/
def parse (s : String) : Option Json :=
  let cs := s.toList
  match value (2 * cs.length + 2) cs with
  | none => none
  | some (j, rest) => if (skip rest).isEmpty then some j else none

end Json
end SparcIU
