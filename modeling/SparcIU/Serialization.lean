/-
# Serialization

What saved states and configurations need of a serialization library: a text for
each JSON value and back, and for each declaration of a type (a record with named
fields, an enumeration, a set of flags) the code that writes its values and reads
them. The library is a parameter. A declaration is data: the fields of a record
with their names, the names of the variants, the table of the flags.

A codec is the code of one type. Reading is not asked to be exact: a library may
take more texts than it writes.

Key definitions: `Codec`, `Fields`, `Variant`, `Serialization`.
-/
import SparcIU.Json
import SparcIU.Flags

namespace SparcIU

/-- How the values of a type are written and read. -/
structure Codec (α : Type) where
  write : α → Json
  read : Json → Option α

/-- The codec of a type that is declared as another one. -/
def Codec.via (c : Codec α) (toBase : β → α) (ofBase? : α → Option β) : Codec β where
  write b := c.write (toBase b)
  read j := (c.read j).bind ofBase?

/-! ### Declarations -/

/-- The fields of a record in their order, each with its name, its codec and the value it has
where it is missing, if it may be. -/
inductive Fields : Type → Type 1 where
  | nil : Fields Unit
  | cons {α β : Type} (name : String) (codec : Codec α) (missing : Option α) (rest : Fields β) :
      Fields (α × β)

namespace Fields

def names : {α : Type} → Fields α → List String
  | _, nil => []
  | _, cons name _ _ rest => name :: rest.names

/-- A member for each field. -/
def members : {α : Type} → Fields α → α → List (String × Json)
  | _, nil, _ => []
  | _, cons name codec _ rest, (a, b) => (name, codec.write a) :: rest.members b

end Fields

/-- The values of an enumeration: some variants carry nothing, others a value. -/
inductive Variant (units carrying : List String) (α : Type) where
  | unit (name : String) (h : name ∈ units)
  | carrying (name : String) (h : name ∈ carrying) (value : α)

/-! ### Libraries -/

/-- The functions of a serialization library. -/
structure Serialization where
  /-- The text of a value, without blanks. -/
  compact : Json → String
  /-- The text of a value, with a line for each item. -/
  indented : Json → String
  /-- The value a text describes. -/
  parse : String → Option Json
  byte : Codec UInt8
  word : Codec Word
  bool : Codec Bool
  array {α : Type} : Codec α → Codec (Array α)
  option {α : Type} : Codec α → Codec (Option α)
  /-- The code of a record; `defaults` if the record is declared to have defaults. -/
  struct {α : Type} (defaults : Bool) : Fields α → Codec α
  enum {α : Type} (units carrying : List String) : Codec α → Codec (Variant units carrying α)
  flags : Flags → Codec Word

namespace Serialization

variable (lib : Serialization)

/-- The compact text of a value. -/
def save (c : Codec α) (a : α) : String := lib.compact (c.write a)

/-- The text of a value with a line for each item. -/
def saveIndented (c : Codec α) (a : α) : String := lib.indented (c.write a)

/-- The value a text describes. -/
def restore? (c : Codec α) (s : String) : Option α := (lib.parse s).bind c.read

end Serialization
end SparcIU
