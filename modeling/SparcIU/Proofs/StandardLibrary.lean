/-
# The library does what libraries document

The serialization library that the programs use writes and reads as documented: its
texts are JSON by the grammar, in both layouts, and it finds the value of every
text of the grammar; a field is found among the members of an object wherever it
stands; and a text of flags is read piece by piece.

Key theorems: `Standard.ofMembers?_of_found`, `Serialization.standard_documented`.
-/
import SparcIU.Serialization.Standard
import SparcIU.Proofs.JsonText
import SparcIU.Proofs.Serialization

namespace SparcIU
namespace Standard

/-! ### Values -/

theorem mapM_of_forall₂ {read : Json → Option α} {js : List Json} {as : List α}
    (h : List.Forall₂ (fun j a => read j = some a) js as) : js.mapM read = some as := by
  induction h with
  | nil => rfl
  | cons hj _ ih => simp [List.mapM_cons, hj, ih]

theorem option_read_value {c : Codec α} {j : Json} {a : α} (hne : j ≠ .null)
    (h : c.read j = some a) : (option c).read j = some (some a) := by
  have hread : (option c).read j = (c.read j).map some := by
    cases j with
    | null => exact absurd rfl hne
    | _ => rfl
  rw [hread, h, Option.map_some]

/-! ### Records -/

variable {ms : List (String × Json)} {name : String}

/-- Where no name stands twice, the members of a name are the one that was found. -/
theorem filter_of_mem (hnodup : (ms.map Prod.fst).Nodup) {j : Json} (hj : (name, j) ∈ ms) :
    ms.filter (fun m => m.1 == name) = [(name, j)] := by
  obtain ⟨l, r, rfl⟩ := List.append_of_mem hj
  rw [List.map_append, List.map_cons] at hnodup
  obtain ⟨-, hright, hleft⟩ := List.nodup_append.mp hnodup
  have hl : ∀ m ∈ l, ¬ (m.1 == name) = true := fun m hm heq =>
    hleft m.1 (List.mem_map_of_mem hm) name List.mem_cons_self (eq_of_beq heq)
  have hr : ∀ m ∈ r, ¬ (m.1 == name) = true := by
    intro m hm heq
    have hmem : m.1 ∈ r.map Prod.fst := List.mem_map_of_mem hm
    rw [eq_of_beq heq] at hmem
    exact (List.nodup_cons.mp hright).1 hmem
  have hself : ((name, j).1 == name) = true := beq_self_eq_true name
  rw [List.filter_append, List.filter_cons, if_pos hself, List.filter_eq_nil_iff.mpr hl,
    List.filter_eq_nil_iff.mpr hr, List.nil_append]

theorem filter_of_notMem (h : name ∉ ms.map Prod.fst) : ms.filter (fun m => m.1 == name) = [] :=
  List.filter_eq_nil_iff.mpr fun _ hm heq => h (eq_of_beq heq ▸ List.mem_map_of_mem hm)

/-- **The fields of a record are read** where they are found. -/
theorem ofMembers?_of_found (hnodup : (ms.map Prod.fst).Nodup) : ∀ {α : Type} (fs : Fields α)
    (a : α), fs.Found ms a → ofMembers? ms fs = some a
  | _, .nil, _, _ => rfl
  | _, .cons name codec missing rest, (a, b), h => by
    obtain ⟨hfield, hrest⟩ := h
    have hread : member? ms name codec missing = some a := by
      rcases hfield with ⟨j, hj, hread⟩ | ⟨hnone, hmissing⟩
      · rw [member?, filter_of_mem hnodup hj]
        exact hread
      · rw [member?, filter_of_notMem hnone]
        exact hmissing
    rw [ofMembers?, hread, ofMembers?_of_found hnodup rest b hrest]
    rfl

/-! ### Enumerations -/

variable {units carrying : List String} {c : Codec α}

/-- A name that carries a value is no name of a variant without one. -/
theorem enum_read_carrying (hname : name ∈ carrying) {j : Json} {a : α}
    (hnodup : (units ++ carrying).Nodup) (h : c.read j = some a) :
    (enum units carrying c).read (.object [(name, j)]) = some (.carrying name hname a) := by
  have hunit : name ∉ units := fun hmem =>
    (List.nodup_append.mp hnodup).2.2 name hmem name hname rfl
  show keyed? units carrying c name j = _
  rw [keyed?, dif_neg hunit, dif_pos hname, h, Option.map_some]

end Standard

/-- **The library behaves as documented.** -/
theorem Serialization.standard_documented : Serialization.standard.Documented where
  compact_spells hj := by
    rw [show standard.compact = Json.compact from rfl, Json.compact, String.toList_ofList]
    exact Json.Layout.tight.spells_write hj 0
  indented_spells hj := by
    rw [show standard.indented = Json.indented from rfl, Json.indented, String.toList_ofList]
    exact Json.Layout.lines.spells_write hj 0
  parse_spelled _ hs := Json.parse_of_spells hs
  byte_write _ := rfl
  byte_read b := by
    show (if b.toNat < 0x100 then some (UInt8.ofNat b.toNat) else none) = some b
    rw [if_pos b.toNat_lt, UInt8.ofNat_toNat]
  word_write _ := rfl
  word_read w := by
    show (if w.toNat < 0x100000000 then some (UInt32.ofNat w.toNat) else none) = some w
    rw [if_pos w.toNat_lt, UInt32.ofNat_toNat]
  bool_write _ := rfl
  bool_read _ := rfl
  array_write _ _ := rfl
  array_read c js as h := by
    show (js.mapM c.read).map List.toArray = _
    rw [Standard.mapM_of_forall₂ h, Option.map_some]
  option_write_none _ := rfl
  option_write_some _ _ := rfl
  option_read_null _ := rfl
  option_read_value _ _ _ hne h := Standard.option_read_value hne h
  struct_write _ _ _ := rfl
  struct_read _ fs _ a _ hnodup h := Standard.ofMembers?_of_found hnodup fs a h
  enum_write_unit _ _ _ := rfl
  enum_write_carrying _ _ _ _ := rfl
  enum_read_unit _ _ h _ := dif_pos h
  enum_read_carrying _ _ h _ _ hnodup hread := Standard.enum_read_carrying h hnodup hread
  flags_write _ _ := rfl
  flags_read ht h := Flags.ofText?_text ht h

end SparcIU
