/-
# What a serialization library documents

The library is a parameter of the saved states, and what it documents is a
hypothesis of what is proved of them: its texts are JSON and it reads JSON, a
record is an object with a member for each field, a variant its name or an object
with the name as its key, and a set of flags the text of its pieces. Nothing is
asked of texts and values outside of these forms.

From each of the laws a codec is lossless if the codecs it is made of are, so a
type is restored as soon as its declaration is known.

Key definitions: `Fields.Found`, `Serialization.Documented`, `Codec.Lossless`.
Key theorems: `Serialization.Documented.lossless_struct`,
`Serialization.Documented.lossless_enum`, `Serialization.Documented.lossless_flags`,
`Serialization.Documented.restore_save`.
-/
import SparcIU.Serialization
import SparcIU.Proofs.FlagText
import SparcIU.Proofs.JsonGrammar
import Mathlib.Data.List.Forall2
import Mathlib.Data.List.Nodup

namespace SparcIU

/-! ### Documented behaviour -/

/-- The fields of a record among the members of an object: each is read from the member of its
name, or is missing and has the value declared for that. -/
def Fields.Found (ms : List (String × Json)) : {α : Type} → Fields α → α → Prop
  | _, .nil, _ => True
  | _, .cons name codec missing rest, (a, b) =>
    ((∃ j, (name, j) ∈ ms ∧ codec.read j = some a) ∨ (name ∉ ms.map Prod.fst ∧ missing = some a)) ∧
      rest.Found ms b

/-- The documented behaviour of a serialization library. It reads containers that are nested at
most 127 deep. -/
structure Serialization.Documented (lib : Serialization) : Prop where
  /-- What is written is JSON, in both forms. -/
  compact_spells : ∀ {j : Json}, j.Plain 127 → j.Spells (lib.compact j).toList
  indented_spells : ∀ {j : Json}, j.Plain 127 → j.Spells (lib.indented j).toList
  /-- JSON is read by its grammar. -/
  parse_spelled : ∀ {s : String} {j : Json}, j.Plain 127 → j.Spells s.toList → lib.parse s = some j
  /-- Numbers and truth values are themselves. -/
  byte_write : ∀ b, lib.byte.write b = .natural b.toNat
  byte_read : ∀ b : UInt8, lib.byte.read (.natural b.toNat) = some b
  word_write : ∀ w, lib.word.write w = .natural w.toNat
  word_read : ∀ w : Word, lib.word.read (.natural w.toNat) = some w
  bool_write : ∀ b, lib.bool.write b = .bool b
  bool_read : ∀ b, lib.bool.read (.bool b) = some b
  /-- A row of values is an array. -/
  array_write : ∀ {α : Type} (c : Codec α) (as : Array α),
    (lib.array c).write as = .array (as.toList.map c.write)
  array_read : ∀ {α : Type} (c : Codec α) {js : List Json} {as : List α},
    List.Forall₂ (fun j a => c.read j = some a) js as →
      (lib.array c).read (.array js) = some as.toArray
  /-- Nothing is null, and a value is itself. -/
  option_write_none : ∀ {α : Type} (c : Codec α), (lib.option c).write none = .null
  option_write_some : ∀ {α : Type} (c : Codec α) (a : α), (lib.option c).write (some a) = c.write a
  option_read_null : ∀ {α : Type} (c : Codec α), (lib.option c).read .null = some none
  option_read_value : ∀ {α : Type} (c : Codec α) {j : Json} {a : α}, j ≠ .null →
    c.read j = some a → (lib.option c).read j = some (some a)
  /-- A record is an object with a member for each field, which may stand in any order and among
  others. -/
  struct_write : ∀ {α : Type} (defaults : Bool) (fs : Fields α) (a : α),
    (lib.struct defaults fs).write a = .object (fs.members a)
  struct_read : ∀ {α : Type} (defaults : Bool) (fs : Fields α) {ms : List (String × Json)} {a : α},
    fs.names.Nodup → (ms.map Prod.fst).Nodup → fs.Found ms a →
      (lib.struct defaults fs).read (.object ms) = some a
  /-- A variant is its name, or an object with the name as the key of its value. -/
  enum_write_unit : ∀ {α : Type} {units carrying : List String} (c : Codec α) {name : String}
    (h : name ∈ units), (lib.enum units carrying c).write (.unit name h) = .text name
  enum_write_carrying : ∀ {α : Type} {units carrying : List String} (c : Codec α) {name : String}
    (h : name ∈ carrying) (a : α),
    (lib.enum units carrying c).write (.carrying name h a) = .object [(name, c.write a)]
  enum_read_unit : ∀ {α : Type} {units carrying : List String} (c : Codec α) {name : String}
    (h : name ∈ units), (units ++ carrying).Nodup →
      (lib.enum units carrying c).read (.text name) = some (.unit name h)
  enum_read_carrying : ∀ {α : Type} {units carrying : List String} (c : Codec α) {name : String}
    (h : name ∈ carrying) {j : Json} {a : α}, (units ++ carrying).Nodup → c.read j = some a →
      (lib.enum units carrying c).read (.object [(name, j)]) = some (.carrying name h a)
  /-- A set of flags is the text of its pieces, and a text of pieces has their bits. -/
  flags_write : ∀ {t : Flags} (w : Word), t.Sound →
    (lib.flags t).write w = .text (Flags.text (t.pieces w))
  flags_read : ∀ {t ps : Flags}, t.Sound → (∀ p ∈ ps, t.IsPiece p) →
    (lib.flags t).read (.text (Flags.text ps)) = some ps.union

/-! ### Lossless codecs -/

/-- What is written is plain JSON, and is read back. -/
structure Codec.Lossless (depth : Nat) (c : Codec α) : Prop where
  read_write : ∀ a, c.read (c.write a) = some a
  plain : ∀ a, (c.write a).Plain depth

/-- A type that is declared as another one is restored, if it is found again in its values. -/
theorem Codec.Lossless.via {depth : Nat} {c : Codec α} (hc : c.Lossless depth) {toBase : β → α}
    {ofBase? : α → Option β} (h : ∀ b, ofBase? (toBase b) = some b) :
    (c.via toBase ofBase?).Lossless depth where
  read_write b := by
    show (c.read (c.write (toBase b))).bind ofBase? = some b
    rw [hc.read_write, Option.bind_some, h]
  plain b := hc.plain (toBase b)

namespace Fields

/-- All fields have lossless codecs. -/
def Lossless (depth : Nat) : {α : Type} → Fields α → Prop
  | _, .nil => True
  | _, .cons _ codec _ rest => codec.Lossless depth ∧ rest.Lossless depth

theorem map_fst_members : ∀ {α : Type} (fs : Fields α) (a : α),
    (fs.members a).map Prod.fst = fs.names
  | _, .nil, _ => rfl
  | _, .cons name _ _ rest, (_, b) => congrArg (name :: ·) (rest.map_fst_members b)

theorem plain_of_mem_members {depth : Nat} : ∀ {α : Type} (fs : Fields α) (a : α),
    fs.Lossless depth → ∀ m ∈ fs.members a, m.2.Plain depth
  | _, .nil, _, _ => List.forall_mem_nil _
  | _, .cons _ _ _ rest, (a, b), h =>
    List.forall_mem_cons.mpr ⟨h.1.plain a, rest.plain_of_mem_members b h.2⟩

/-- The fields are found among the members that are written of them, and among more. -/
theorem found_of_members {depth : Nat} {ms : List (String × Json)} : ∀ {α : Type} (fs : Fields α)
    (a : α), fs.Lossless depth → (∀ m ∈ fs.members a, m ∈ ms) → fs.Found ms a
  | _, .nil, _, _, _ => trivial
  | _, .cons name codec _ rest, (a, b), h, hms => by
    obtain ⟨hm, hms⟩ := List.forall_mem_cons.mp hms
    exact ⟨.inl ⟨codec.write a, hm, h.1.read_write a⟩, rest.found_of_members b h.2 hms⟩

end Fields

namespace Serialization
namespace Documented

variable {lib : Serialization} (h : lib.Documented) {depth : Nat} {c : Codec α}

include h

theorem lossless_byte : lib.byte.Lossless depth where
  read_write b := by rw [h.byte_write, h.byte_read]
  plain b := by
    have hb := b.toNat_lt
    rw [h.byte_write]
    exact .natural (by omega)

theorem word_ne_null (w : Word) : lib.word.write w ≠ .null := by
  rw [h.word_write]
  exact Json.noConfusion

theorem lossless_word : lib.word.Lossless depth where
  read_write w := by rw [h.word_write, h.word_read]
  plain w := by
    have hw := w.toNat_lt
    rw [h.word_write]
    exact .natural (by omega)

theorem lossless_bool : lib.bool.Lossless depth where
  read_write b := by rw [h.bool_write, h.bool_read]
  plain b := by
    rw [h.bool_write]
    exact .bool b

theorem lossless_array (hc : c.Lossless depth) : (lib.array c).Lossless (depth + 1) where
  read_write as := by
    have hitems : List.Forall₂ (fun j a => c.read j = some a) (as.toList.map c.write) as.toList :=
      List.forall₂_map_left_iff.mpr (List.forall₂_same.mpr fun a _ => hc.read_write a)
    rw [h.array_write, h.array_read c hitems, Array.toArray_toList]
  plain as := by
    rw [h.array_write]
    refine .array fun j hj => ?_
    obtain ⟨a, -, rfl⟩ := List.mem_map.mp hj
    exact hc.plain a

/-- Nothing and a value are told apart, if no value is null. -/
theorem lossless_option (hc : c.Lossless depth) (hne : ∀ a, c.write a ≠ .null) :
    (lib.option c).Lossless depth where
  read_write o := by
    cases o with
    | none => rw [h.option_write_none, h.option_read_null]
    | some a => rw [h.option_write_some, h.option_read_value c (hne a) (hc.read_write a)]
  plain o := by
    cases o with
    | none =>
      rw [h.option_write_none]
      exact .null
    | some a =>
      rw [h.option_write_some]
      exact hc.plain a

/-- **A record is restored**, if its fields are. -/
theorem lossless_struct (defaults : Bool) {fs : Fields α} (hnames : fs.names.Nodup)
    (hfs : fs.Lossless depth) : (lib.struct defaults fs).Lossless (depth + 1) where
  read_write a := by
    have hmembers : ((fs.members a).map Prod.fst).Nodup := by rwa [fs.map_fst_members]
    have hfound : fs.Found (fs.members a) a := fs.found_of_members a hfs fun _ hm => hm
    rw [h.struct_write, h.struct_read defaults fs hnames hmembers hfound]
  plain a := by
    rw [h.struct_write]
    refine .object ?_ (fs.plain_of_mem_members a hfs)
    rwa [fs.map_fst_members]

variable {units carrying : List String}

/-- **A variant is restored**, with its value if it has one. -/
theorem lossless_enum (hc : c.Lossless depth) (hnames : (units ++ carrying).Nodup) :
    (lib.enum units carrying c).Lossless (depth + 1) where
  read_write v := by
    cases v with
    | unit name hname => rw [h.enum_write_unit, h.enum_read_unit c hname hnames]
    | carrying name hname a =>
      rw [h.enum_write_carrying, h.enum_read_carrying c hname hnames (hc.read_write a)]
  plain v := by
    cases v with
    | unit name hname =>
      rw [h.enum_write_unit]
      exact .text name
    | carrying name hname a =>
      rw [h.enum_write_carrying]
      exact .object (List.nodup_singleton name) (List.forall_mem_singleton.mpr (hc.plain a))

theorem enum_ne_null (v : Variant units carrying α) : (lib.enum units carrying c).write v ≠ .null := by
  cases v with
  | unit name hname =>
    rw [h.enum_write_unit]
    exact Json.noConfusion
  | carrying name hname a =>
    rw [h.enum_write_carrying]
    exact Json.noConfusion

/-- **A word is restored from the text of its flags.** -/
theorem lossless_flags {t : Flags} (ht : t.Sound) : (lib.flags t).Lossless depth where
  read_write w := by
    rw [h.flags_write w ht, h.flags_read ht fun _ hp => Flags.isPiece_of_mem_pieces hp,
      Flags.union_pieces]
  plain w := by
    rw [h.flags_write w ht]
    exact .text _

/-- **What is saved is restored**, in both forms of the text. -/
theorem restore_save (hc : c.Lossless 127) (a : α) :
    lib.restore? c (lib.save c a) = some a ∧ lib.restore? c (lib.saveIndented c a) = some a := by
  have hplain := hc.plain a
  have hread : (some (c.write a)).bind c.read = some a := hc.read_write a
  rw [restore?, restore?, save, saveIndented, h.parse_spelled hplain (h.compact_spells hplain),
    h.parse_spelled hplain (h.indented_spells hplain)]
  exact ⟨hread, hread⟩

end Documented
end Serialization
end SparcIU
