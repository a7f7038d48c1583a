/-
# A serialization library

A record is an object with a member for each field, or an array of the fields in
their order. Members with other names are passed over; a name that is known may
stand only once. A missing field has the value that is declared for it, if there
is one; an array may only be shorter than the record if the record has defaults.
A variant that carries nothing is its name, which may also be the key of a null;
one that carries a value is an object with the name as its key. An option is null
or a value, and a set of flags is the text of its flags.

Key definitions: `Serialization.standard`.
-/
import SparcIU.Serialization
import SparcIU.Json.Reader
import SparcIU.Json.Writer

namespace SparcIU
namespace Standard

/-- The natural numbers below a limit. -/
def bounded (limit : Nat) (toNat : α → Nat) (ofNat : Nat → α) : Codec α where
  write a := .natural (toNat a)
  read
    | .natural n => if n < limit then some (ofNat n) else none
    | _ => none

def bool : Codec Bool where
  write := .bool
  read
    | .bool b => some b
    | _ => none

/-- Values one after another. -/
def array (c : Codec α) : Codec (Array α) where
  write as := .array (as.toList.map c.write)
  read
    | .array js => (js.mapM c.read).map List.toArray
    | _ => none

/-- Nothing, or a value. -/
def option (c : Codec α) : Codec (Option α) where
  write
    | none => .null
    | some a => c.write a
  read
    | .null => some none
    | j => (c.read j).map some

/-! ### Records -/

/-- The only member of that name, read; what is declared for a missing one if there is none. -/
def member? (ms : List (String × Json)) (name : String) (codec : Codec α) (missing : Option α) :
    Option α :=
  match ms.filter fun m => m.1 == name with
  | [] => missing
  | [(_, j)] => codec.read j
  | _ => none

/-- The fields of an object. -/
def ofMembers? (ms : List (String × Json)) : {α : Type} → Fields α → Option α
  | _, .nil => some ()
  | _, .cons name codec missing rest => do
    let a ← member? ms name codec missing
    let b ← ofMembers? ms rest
    some (a, b)

/-- The fields of an array. -/
def ofItems? (defaults : Bool) : {α : Type} → Fields α → List Json → Option α
  | _, .nil, [] => some ()
  | _, .nil, _ => none
  | _, .cons _ codec _ rest, j :: js => do
    let a ← codec.read j
    let b ← ofItems? defaults rest js
    some (a, b)
  | _, .cons _ _ missing rest, [] =>
    if defaults then do
      let a ← missing
      let b ← ofItems? defaults rest []
      some (a, b)
    else none

def struct (defaults : Bool) (fs : Fields α) : Codec α where
  write a := .object (fs.members a)
  read
    | .object ms => ofMembers? ms fs
    | .array js => ofItems? defaults fs js
    | _ => none

/-! ### Enumerations and flags -/

/-- The variant with a name and a value. -/
def keyed? (units carrying : List String) (c : Codec α) (name : String) (j : Json) :
    Option (Variant units carrying α) :=
  if h : name ∈ units then
    match j with
    | .null => some (.unit name h)
    | _ => none
  else if h : name ∈ carrying then (c.read j).map (.carrying name h)
  else none

def enum (units carrying : List String) (c : Codec α) : Codec (Variant units carrying α) where
  write
    | .unit name _ => .text name
    | .carrying name _ a => .object [(name, c.write a)]
  read
    | .text name => if h : name ∈ units then some (.unit name h) else none
    | .object [(name, j)] => keyed? units carrying c name j
    | _ => none

def flags (t : Flags) : Codec Word where
  write w := .text (Flags.text (t.pieces w))
  read
    | .text s => t.ofText? s
    | _ => none

end Standard

def Serialization.standard : Serialization where
  compact := Json.compact
  indented := Json.indented
  parse := Json.parse
  byte := Standard.bounded 0x100 UInt8.toNat UInt8.ofNat
  word := Standard.bounded 0x100000000 UInt32.toNat UInt32.ofNat
  bool := Standard.bool
  array := Standard.array
  option := Standard.option
  struct := Standard.struct
  enum := Standard.enum
  flags := Standard.flags

end SparcIU
