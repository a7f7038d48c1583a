/-
# The grammar of JSON

Which texts spell a value, stated beside the reader and the writers and without
them. Blanks may stand around every value and every sign between values; a
character of a text is itself, or an escape by its letter, or its code in four
hexadecimal digits, and a character above the sixteen-bit codes is a pair of
surrogates. Of the numbers only the natural ones are spelled, without zeros in
front.

The grammar says what a text means, not which text is written: every writer that
puts nothing but blanks of its own between the signs stays inside it, in
particular the compact one and the one with a line for each item.

Key definitions: `Json.Plain`, `Json.SpellsChar`, `Json.SpellsText`, `Json.Spells`.
Key theorems: `Json.spellsText_quoted`, `Json.Layout.spells_write`.
-/
import SparcIU.Json.Writer
import SparcIU.Proofs.Numerals

namespace SparcIU
namespace Json

/-! ### Values -/

/-- The values that are told apart by their texts, nested at most `depth` deep: the numbers are
natural ones of 64 bits, and no name stands twice in an object. -/
inductive Plain : Nat → Json → Prop where
  | null {depth : Nat} : Plain depth null
  | bool {depth : Nat} (b : Bool) : Plain depth (bool b)
  | natural {depth n : Nat} (h : n < 0x10000000000000000) : Plain depth (natural n)
  | text {depth : Nat} (s : String) : Plain depth (text s)
  | array {depth : Nat} {items : List Json} (h : ∀ j ∈ items, Plain depth j) :
      Plain (depth + 1) (array items)
  | object {depth : Nat} {members : List (String × Json)}
      (hnames : (members.map Prod.fst).Nodup) (h : ∀ m ∈ members, Plain depth m.2) :
      Plain (depth + 1) (object members)

/-! ### Texts -/

/-- Four hexadecimal digits and the number they are. -/
inductive IsCode : List Char → Nat → Prop where
  | mk {a b c d : Char} {i j k l : Nat} (ha : Numeral.IsDigit 16 a i) (hb : Numeral.IsDigit 16 b j)
      (hc : Numeral.IsDigit 16 c k) (hd : Numeral.IsDigit 16 d l) :
      IsCode [a, b, c, d] (((i * 16 + j) * 16 + k) * 16 + l)

/-- The letters of the escapes, and what they stand for. -/
def escapeLetters : List (Char × Char) :=
  [('"', '"'), ('\\', '\\'), ('/', '/'), ('b', Char.ofNat 8), ('t', '\t'), ('n', '\n'),
   ('f', Char.ofNat 12), ('r', '\r')]

/-- What stands for one character inside quotes. -/
inductive SpellsChar : List Char → Char → Prop where
  | plain {c : Char} (hcontrol : 32 ≤ c.toNat) (hquote : c ≠ '"') (hslash : c ≠ '\\') :
      SpellsChar [c] c
  | letter {e c : Char} (h : (e, c) ∈ escapeLetters) : SpellsChar ['\\', e] c
  | code {cs : List Char} {n : Nat} (h : IsCode cs n) (hn : n < 0xd800 ∨ 0xe000 ≤ n) :
      SpellsChar ('\\' :: 'u' :: cs) (Char.ofNat n)
  | pair {cs ds : List Char} {high low : Nat} (hcs : IsCode cs high) (hds : IsCode ds low)
      (hhigh : 0xd800 ≤ high ∧ high < 0xdc00) (hlow : 0xdc00 ≤ low ∧ low < 0xe000) :
      SpellsChar ('\\' :: 'u' :: cs ++ '\\' :: 'u' :: ds)
        (Char.ofNat (0x10000 + (high - 0xd800) * 0x400 + (low - 0xdc00)))

inductive SpellsChars : List Char → List Char → Prop where
  | nil : SpellsChars [] []
  | cons {cs body s : List Char} {c : Char} (head : SpellsChar cs c) (tail : SpellsChars body s) :
      SpellsChars (cs ++ body) (c :: s)

/-- A text in quotes. -/
inductive SpellsText : List Char → String → Prop where
  | mk {body : List Char} {s : String} (h : SpellsChars body s.toList) :
      SpellsText ('"' :: body ++ ['"']) s

/-! ### The grammar -/

/-- The parts of a member of an object: its key and its value, with the blanks around the key. -/
structure Member where
  before : List Char
  key : List Char
  gap : List Char
  value : List Char
  name : String
  json : Json

def Member.text (m : Member) : List Char := m.before ++ m.key ++ m.gap ++ ':' :: m.value

/-- The text `cs` means the value. -/
inductive Spells : List Char → Json → Prop where
  | null : Spells ['n', 'u', 'l', 'l'] null
  | true : Spells ['t', 'r', 'u', 'e'] (bool true)
  | false : Spells ['f', 'a', 'l', 's', 'e'] (bool false)
  | natural (n : Nat) : Spells (Nat.toDigits 10 n) (natural n)
  | text {cs : List Char} {s : String} (h : SpellsText cs s) : Spells cs (text s)
  | array {items : List (List Char × Json)} {close : List Char}
      (h : ∀ p ∈ items, Spells p.1 p.2) (hclose : Spaces close) :
      Spells ('[' :: [','].intercalate (items.map Prod.fst) ++ close ++ [']'])
        (array (items.map Prod.snd))
  | object {members : List Member} {close : List Char}
      (hblanks : ∀ m ∈ members, Spaces m.before ∧ Spaces m.gap)
      (hkeys : ∀ m ∈ members, SpellsText m.key m.name)
      (hvalues : ∀ m ∈ members, Spells m.value m.json) (hclose : Spaces close) :
      Spells ('\x7b' :: [','].intercalate (members.map Member.text) ++ close ++ ['\x7d'])
        (object (members.map fun m => (m.name, m.json)))
  | blanks {before after cs : List Char} {j : Json} (hbefore : Spaces before)
      (hafter : Spaces after) (h : Spells cs j) : Spells (before ++ cs ++ after) j

/-- Blanks in front of a value. -/
theorem Spells.behind {before cs : List Char} {j : Json} (hbefore : Spaces before)
    (h : Spells cs j) : Spells (before ++ cs) j := by
  have hblanks := Spells.blanks hbefore (List.forall_mem_nil _) h
  rwa [List.append_nil] at hblanks

/-! ### What is written -/

/-- A control character is spelled by its number. -/
theorem isCode_control {n : Nat} (hn : n < 32) :
    IsCode ['0', '0', Nat.digitChar (n / 16), Nat.digitChar (n % 16)] n := by
  have hzero : Numeral.IsDigit 16 '0' 0 := by decide
  have hhigh : Numeral.IsDigit 16 (Nat.digitChar (n / 16)) (n / 16) :=
    Numeral.isDigit_digitChar (by decide) (by omega)
  have hlow : Numeral.IsDigit 16 (Nat.digitChar (n % 16)) (n % 16) :=
    Numeral.isDigit_digitChar (by decide) (by omega)
  have hvalue : ((0 * 16 + 0) * 16 + n / 16) * 16 + n % 16 = n := by omega
  have hcode := IsCode.mk hzero hzero hhigh hlow
  rwa [hvalue] at hcode

/-- **Every character is spelled by what is written of it.** -/
theorem spellsChar_escape (c : Char) : SpellsChar (escape c) c := by
  have hnamed : ∀ n, c.toNat = n → c = Char.ofNat n := fun n h => by rw [← h, Char.ofNat_toNat]
  unfold escape
  split_ifs with hquote hslash h8 h9 h10 h12 h13 hcontrol
  · rw [hquote]; exact .letter (by decide)
  · rw [hslash]; exact .letter (by decide)
  · rw [hnamed 8 h8]; exact .letter (by decide)
  · rw [hnamed 9 h9]; exact .letter (by decide)
  · rw [hnamed 10 h10]; exact .letter (by decide)
  · rw [hnamed 12 h12]; exact .letter (by decide)
  · rw [hnamed 13 h13]; exact .letter (by decide)
  · have hspells := SpellsChar.code (isCode_control hcontrol) (.inl (by omega))
    rwa [Char.ofNat_toNat] at hspells
  · exact .plain (by omega) hquote hslash

theorem spellsChars_escape (s : List Char) : SpellsChars (s.flatMap escape) s := by
  induction s with
  | nil => exact .nil
  | cons c s ih => exact .cons (spellsChar_escape c) ih

theorem spellsText_quoted (s : String) : SpellsText (quoted s) s :=
  .mk (spellsChars_escape s.toList)

namespace Layout

variable (L : Layout) (level : Nat)

theorem writeItems_eq_map (js : List Json) :
    L.writeItems level js = js.map fun j => L.lineBreak level ++ L.write level j := by
  induction js with
  | nil => rfl
  | cons j js ih => rw [writeItems, List.map_cons, ih]

/-- A member as it is written. -/
def member (m : String × Json) : Member where
  before := L.lineBreak level
  key := quoted m.1
  gap := []
  value := L.gap ++ L.write level m.2
  name := m.1
  json := m.2

theorem writeMembers_eq_map (ms : List (String × Json)) :
    L.writeMembers level ms = ms.map fun m => (L.member level m).text := by
  induction ms with
  | nil => rfl
  | cons m ms ih =>
    rw [writeMembers, List.map_cons, ih, Member.text, member, List.append_nil]

/-- An array is written as a row of items, none if it is empty. -/
theorem write_array (js : List Json) :
    ∃ close, Spaces close ∧ L.write level (array js) =
      '[' :: [','].intercalate (L.writeItems (level + 1) js) ++ close ++ [']'] := by
  cases js with
  | nil => exact ⟨[], List.forall_mem_nil _, rfl⟩
  | cons j js => exact ⟨_, L.spaces_lineBreak level, rfl⟩

theorem write_object (ms : List (String × Json)) :
    ∃ close, Spaces close ∧ L.write level (object ms) =
      '\x7b' :: [','].intercalate (L.writeMembers (level + 1) ms) ++ close ++ ['\x7d'] := by
  cases ms with
  | nil => exact ⟨[], List.forall_mem_nil _, rfl⟩
  | cons m ms => exact ⟨_, L.spaces_lineBreak level, rfl⟩

theorem spells_array {js : List Json} (h : ∀ j ∈ js, Spells (L.write (level + 1) j) j) :
    Spells (L.write level (array js)) (array js) := by
  obtain ⟨close, hclose, hwrite⟩ := L.write_array level js
  have hitems : ∀ p ∈ js.map fun j => (L.lineBreak (level + 1) ++ L.write (level + 1) j, j),
      Spells p.1 p.2 := by
    intro p hp
    obtain ⟨j, hj, rfl⟩ := List.mem_map.mp hp
    exact (h j hj).behind (L.spaces_lineBreak _)
  have harray := Spells.array hitems hclose
  rw [List.map_map, List.map_map] at harray
  rw [hwrite, writeItems_eq_map]
  simpa only [Function.comp_def, List.map_id'] using harray

theorem spells_object {ms : List (String × Json)}
    (h : ∀ m ∈ ms, Spells (L.write (level + 1) m.2) m.2) :
    Spells (L.write level (object ms)) (object ms) := by
  obtain ⟨close, hclose, hwrite⟩ := L.write_object level ms
  have hmember : ∀ p ∈ ms.map (L.member (level + 1)),
      (Spaces p.before ∧ Spaces p.gap) ∧ SpellsText p.key p.name ∧ Spells p.value p.json := by
    intro p hp
    obtain ⟨m, hm, rfl⟩ := List.mem_map.mp hp
    exact ⟨⟨L.spaces_lineBreak _, List.forall_mem_nil _⟩, spellsText_quoted m.1,
      (h m hm).behind L.spaces_gap⟩
  have hobject := Spells.object (fun p hp => (hmember p hp).1) (fun p hp => (hmember p hp).2.1)
    (fun p hp => (hmember p hp).2.2) hclose
  rw [List.map_map, List.map_map] at hobject
  rw [hwrite, writeMembers_eq_map]
  simpa only [Function.comp_def, member, Prod.mk.eta, List.map_id'] using hobject

/-- **What is written means the value**, in every layout and at every level. -/
theorem spells_write {depth : Nat} {j : Json} (h : j.Plain depth) (level : Nat) :
    Spells (L.write level j) j := by
  induction h generalizing level with
  | null => exact .null
  | bool b => cases b <;> constructor
  | natural _ => exact .natural _
  | text s => exact .text (spellsText_quoted s)
  | array _ ih => exact L.spells_array level fun j hj => ih j hj (level + 1)
  | object _ _ ih => exact L.spells_object level fun m hm => ih m hm (level + 1)

end Layout

end Json
end SparcIU
