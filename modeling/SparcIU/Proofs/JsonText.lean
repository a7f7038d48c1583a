/-
# JSON is read by its grammar

Whatever text means a value, the reader finds that value. It reads from the front
of a text, so the induction on the grammar is over everything that may stand
behind; only a number needs to know about that: it ends before the first character
that cannot continue it, and behind a value there is a blank, a comma, a closing
bracket or nothing. A text may end in blanks that belong to the value by the
grammar and that the reader leaves, so what it leaves is said up to blanks in
front.

Key definitions: `Json.Stops`, `Json.Reads`.
Key theorems: `Json.pieces_of_spells`, `Json.number_toDigits`, `Json.reads_of_spells`,
`Json.parse_of_spells`.
-/
import SparcIU.Json.Reader
import SparcIU.Proofs.JsonGrammar

namespace SparcIU
namespace Json

/-! ### Texts -/

theorem fourDigits_of_isCode {a b c d : Char} {n : Nat} (h : IsCode [a, b, c, d] n) :
    fourDigits a b c d = some n := by
  cases h with
  | mk ha hb hc hd =>
    have hvalue {x : Char} {i : Nat} (hx : Numeral.IsDigit 16 x i) :
        Numeral.digitValue 16 x = some i := (Numeral.digitValue_eq_some_iff (by decide)).mpr hx
    simp only [fourDigits, hvalue ha, hvalue hb, hvalue hc, hvalue hd]

/-- The pieces `qs` are read of `cs`, whatever stands behind. -/
def ReadsPieces (cs : List Char) (qs : List Piece) : Prop :=
  ∀ rest ps last, pieces rest = some (ps, last) → pieces (cs ++ rest) = some (qs ++ ps, last)

theorem ReadsPieces.append {cs ds : List Char} {ps qs : List Piece} (hcs : ReadsPieces cs ps)
    (hds : ReadsPieces ds qs) : ReadsPieces (cs ++ ds) (ps ++ qs) := by
  intro rest rs last h
  rw [List.append_assoc, List.append_assoc]
  exact hcs _ _ _ (hds _ _ _ h)

theorem readsPieces_code {cs : List Char} {n : Nat} (h : IsCode cs n) :
    ReadsPieces ('\\' :: 'u' :: cs) [Piece.ofCode n] := by
  intro rest ps last hrest
  cases h with
  | mk ha hb hc hd =>
    have hcode := fourDigits_of_isCode (.mk ha hb hc hd)
    simp only [List.cons_append, List.nil_append, pieces, hcode, hrest, Piece.before]

theorem readsPieces_letter {e c : Char} (h : (e, c) ∈ escapeLetters) :
    ReadsPieces ['\\', e] [.char c] := by
  have hletters : ∀ p ∈ escapeLetters, shortEscape p.1 = some p.2 ∧ p.1 ≠ 'u' := by decide
  obtain ⟨hshort, hne⟩ := hletters _ h
  intro rest ps last hrest
  rw [List.cons_append, List.cons_append, List.nil_append, pieces]
  · simp only [hshort, hrest, Piece.before, List.cons_append, List.nil_append]
  · exact fun _ _ _ _ _ heq => absurd heq hne

theorem readsPieces_plain {c : Char} (hcontrol : 32 ≤ c.toNat) (hquote : c ≠ '"')
    (hslash : c ≠ '\\') : ReadsPieces [c] [.char c] := by
  intro rest ps last hrest
  rw [List.singleton_append, pieces]
  · rw [if_neg (by simp [hslash, hcontrol]), hrest]
    rfl
  · exact hquote
  · exact fun _ _ _ _ _ h => absurd h hslash
  · exact fun _ _ h => absurd h hslash

/-- **A character is read from what spells it**: one piece, or two halves that are joined. -/
theorem pieces_char {cs : List Char} {c : Char} (h : SpellsChar cs c) :
    ∃ qs, ReadsPieces cs qs ∧ ∀ ps, joinPieces (qs ++ ps) = (joinPieces ps).map (c :: ·) := by
  cases h with
  | plain hcontrol hquote hslash =>
    exact ⟨_, readsPieces_plain hcontrol hquote hslash, fun _ => rfl⟩
  | letter h => exact ⟨_, readsPieces_letter h, fun _ => rfl⟩
  | @code cs n h hn =>
    have hpiece : Piece.ofCode n = .char (Char.ofNat n) := if_neg (by omega)
    exact ⟨_, readsPieces_code h, fun _ => by rw [hpiece]; rfl⟩
  | @pair cs ds high low hcs hds hhigh hlow =>
    have hfirst : Piece.ofCode high = .surrogate high := if_pos (by omega)
    have hsecond : Piece.ofCode low = .surrogate low := if_pos (by omega)
    refine ⟨_, (readsPieces_code hcs).append (readsPieces_code hds), fun ps => ?_⟩
    rw [hfirst, hsecond, List.singleton_append, List.cons_append, List.singleton_append,
      joinPieces, if_pos ⟨hhigh.2, hlow.1⟩]

theorem pieces_chars {body s : List Char} (h : SpellsChars body s) :
    ∃ qs, ReadsPieces body qs ∧ joinPieces qs = some s := by
  induction h with
  | nil => exact ⟨[], fun _ _ _ hrest => hrest, rfl⟩
  | cons head _ ih =>
    obtain ⟨ps, hps, hjoin⟩ := pieces_char head
    obtain ⟨qs, hqs, hrest⟩ := ih
    exact ⟨ps ++ qs, hps.append hqs, by rw [hjoin, hrest, Option.map_some]⟩

/-- **A text is read** up to its closing quote. -/
theorem pieces_of_spells {cs : List Char} {s : String} (h : SpellsText cs s) :
    ∃ body qs, cs = '"' :: body ∧ joinPieces qs = some s.toList ∧
      ∀ rest, pieces (body ++ rest) = some (qs, rest) := by
  cases h with
  | @mk body _ h =>
    obtain ⟨qs, hqs, hjoin⟩ := pieces_chars h
    refine ⟨body ++ ['"'], qs, rfl, hjoin, fun rest => ?_⟩
    have hread := hqs ('"' :: rest) [] rest rfl
    rwa [List.append_nil, ← List.singleton_append, ← List.append_assoc] at hread

/-! ### Numbers -/

/-- What follows cannot continue a number. -/
def Stops (rest : List Char) : Prop :=
  ∀ c ∈ rest.head?, c.isDigit = false ∧ c ≠ '.' ∧ c ≠ 'e' ∧ c ≠ 'E'

theorem stops_cons {c : Char} {rest : List Char} :
    Stops (c :: rest) ↔ c.isDigit = false ∧ c ≠ '.' ∧ c ≠ 'e' ∧ c ≠ 'E' := by
  simp [Stops]

variable {rest : List Char}

theorem digits_append {ds : List Char} (hds : ∀ c ∈ ds, c.isDigit = true) (hrest : Stops rest) :
    digits (ds ++ rest) = (ds, rest) := by
  induction ds with
  | nil =>
    cases rest with
    | nil => rfl
    | cons c rest => rw [List.nil_append, digits, (stops_cons.mp hrest).1]; rfl
  | cons c ds ih =>
    obtain ⟨hc, hds⟩ := List.forall_mem_cons.mp hds
    rw [List.cons_append, digits, if_pos hc, ih hds]

theorem fraction_of_stops (hrest : Stops rest) : fraction rest = some (false, rest) := by
  unfold fraction
  split
  · exact absurd rfl (stops_cons.mp hrest).2.1
  · rfl

theorem exponent_of_stops (hrest : Stops rest) : exponent rest = some (false, rest) := by
  cases rest with
  | nil => rfl
  | cons c rest =>
    obtain ⟨-, -, he, hE⟩ := stops_cons.mp hrest
    unfold exponent
    exact if_neg (by simp [he, hE])

/-- A number begins with a digit, and one above zero with one above zero. -/
theorem toDigits_front (n : Nat) :
    ∃ d < 10, ∃ cs, Nat.toDigits 10 n = d.digitChar :: cs ∧ (0 < n → 0 < d) := by
  induction n using Nat.strongRecOn with
  | ind n ih =>
    rw [Nat.toDigits_eq_if (by decide)]
    split
    · rename_i hlt
      exact ⟨n, hlt, [], rfl, id⟩
    · obtain ⟨d, hd, cs, hcs, hpos⟩ := ih (n / 10) (by omega)
      exact ⟨d, hd, cs ++ [(n % 10).digitChar], by rw [hcs, List.cons_append],
        fun _ => hpos (by omega)⟩

theorem wholePart_toDigits (n : Nat) (hrest : Stops rest) :
    wholePart (Nat.toDigits 10 n ++ rest) = some (Nat.toDigits 10 n, rest) := by
  rcases Nat.eq_zero_or_pos n with rfl | hpos
  · rfl
  · have hdigits : digits (Nat.toDigits 10 n ++ rest) = (Nat.toDigits 10 n, rest) :=
      digits_append (fun c hc => Nat.isDigit_of_mem_toDigits (by decide) (by decide) hc) hrest
    have hchar : ∀ d < 10, 0 < d → d.digitChar ≠ '0' := by decide
    obtain ⟨d, hd, cs, hcs, hfront⟩ := toDigits_front n
    rw [hcs, List.cons_append] at hdigits ⊢
    rw [wholePart, someDigits, hdigits]
    intro _ h
    exact hchar d hd (hfront hpos) (List.cons.inj h).1

/-- **A number is read** up to a character that cannot continue it. -/
theorem number_toDigits (n : Nat) (hrest : Stops rest) :
    number (Nat.toDigits 10 n ++ rest) = some (natural n, rest) := by
  have hunsigned : unsigned (Nat.toDigits 10 n ++ rest) = some (natural n, rest) := by
    rw [unsigned, wholePart_toDigits n hrest]
    simp only [fraction_of_stops hrest, exponent_of_stops hrest, Bool.or_self, Bool.false_eq_true,
      if_false, Nat.ofDigitChars_toDigits (b := 10) (n := n) (by decide) (by decide)]
  obtain ⟨d, hd, cs, hcs, -⟩ := toDigits_front n
  rw [hcs, List.cons_append] at hunsigned ⊢
  rw [number]
  · exact hunsigned
  · intro _ h
    exact Nat.digitChar_ne '-' (by decide) (List.cons.inj h).1

/-! ### Blanks -/

variable {b cs : List Char}

theorem skip_append (hb : Spaces b) (cs : List Char) : skip (b ++ cs) = skip cs :=
  List.dropWhile_append_of_pos hb

theorem skip_cons {c : Char} (hc : isSpace c = false) (cs : List Char) : skip (c :: cs) = c :: cs :=
  List.dropWhile_cons_of_neg (by simp [hc])

/-- The reader passes over blanks to the sign behind them. -/
theorem skip_sign (hb : Spaces b) {c : Char} (hc : isSpace c = false) (cs : List Char) :
    skip (b ++ c :: cs) = c :: cs := by
  rw [skip_append hb, skip_cons hc]

theorem value_append (hb : Spaces b) (fuel : Nat) (cs : List Char) :
    value fuel (b ++ cs) = value fuel cs := by
  cases fuel with
  | zero => rfl
  | succ fuel => rw [value, value, skip_append hb]

theorem Spaces.append {b' : List Char} (hb : Spaces b) (hb' : Spaces b') : Spaces (b ++ b') :=
  List.forall_mem_append.mpr ⟨hb, hb'⟩

/-- A blank or another sign ends a number. -/
theorem stops_append (hb : Spaces b) (hcs : Stops cs) : Stops (b ++ cs) := by
  cases b with
  | nil => exact hcs
  | cons c b =>
    have hc : isSpace c = true := hb c List.mem_cons_self
    simp only [isSpace, Bool.or_eq_true, beq_iff_eq] at hc
    rw [List.cons_append, stops_cons]
    rcases hc with ((rfl | rfl) | rfl) | rfl <;> decide

/-! ### The first sign of a value -/

/-- Behind its blanks the text has a sign, and it does not close an array. -/
def Opens (cs : List Char) : Prop :=
  ∃ b c tail, Spaces b ∧ isSpace c = false ∧ c ≠ ']' ∧ cs = b ++ c :: tail

theorem opens_cons {c : Char} (hc : isSpace c = false ∧ c ≠ ']') (tail : List Char) :
    Opens (c :: tail) :=
  ⟨[], c, tail, List.forall_mem_nil _, hc.1, hc.2, rfl⟩

theorem Opens.append (h : Opens cs) (rest : List Char) : Opens (cs ++ rest) := by
  obtain ⟨b, c, tail, hb, hc, hne, rfl⟩ := h
  exact ⟨b, c, tail ++ rest, hb, hc, hne, by rw [List.append_assoc, List.cons_append]⟩

theorem Opens.behind (h : Opens cs) (hb : Spaces b) : Opens (b ++ cs) := by
  obtain ⟨b', c, tail, hb', hc, hne, rfl⟩ := h
  exact ⟨b ++ b', c, tail, hb.append hb', hc, hne, (List.append_assoc ..).symm⟩

theorem Opens.not_close (h : Opens cs) (tail : List Char) : skip cs ≠ ']' :: tail := by
  obtain ⟨b, c, tail', hb, hc, hne, rfl⟩ := h
  rw [skip_sign hb hc]
  exact fun heq => hne (List.cons.inj heq).1

theorem Opens.length_pos (h : Opens cs) : 0 < cs.length := by
  obtain ⟨b, c, tail, -, -, -, rfl⟩ := h
  simp

theorem opens_of_spells {j : Json} (h : Spells cs j) : Opens cs := by
  induction h with
  | null | true | false => exact opens_cons (by decide) _
  | natural n =>
    obtain ⟨d, hd, cs, hcs, -⟩ := toDigits_front n
    have hchar : ∀ d < 10, isSpace d.digitChar = false ∧ d.digitChar ≠ ']' := by decide
    rw [hcs]
    exact opens_cons (hchar d hd) cs
  | text h =>
    obtain ⟨body, -, rfl, -⟩ := pieces_of_spells h
    exact opens_cons (by decide) body
  | array | object => exact opens_cons (by decide) _
  | blanks hbefore _ _ ih => exact (ih.behind hbefore).append _

/-! ### Values -/

/-- The value is read from the front of a text, with enough fuel and up to blanks that belong
to it. -/
def Reads (cs : List Char) (j : Json) : Prop :=
  ∀ fuel rest, Stops rest → 2 * cs.length ≤ fuel →
    ∃ b, Spaces b ∧ value fuel (cs ++ rest) = some (j, b ++ rest)

/-- A text that means a value is not empty, so there is fuel for it. -/
theorem reads_of_succ {j : Json} (hopens : Opens cs)
    (h : ∀ fuel rest, Stops rest → 2 * cs.length ≤ fuel + 1 →
      value (fuel + 1) (cs ++ rest) = some (j, rest)) : Reads cs j := by
  intro fuel rest hrest hfuel
  have hpos := hopens.length_pos
  obtain ⟨fuel, rfl⟩ : ∃ n, fuel = n + 1 := ⟨fuel - 1, by omega⟩
  exact ⟨[], List.forall_mem_nil _, h fuel rest hrest hfuel⟩

variable {fuel : Nat} {close : List Char}

/-- A row of two or more texts with commas between them. -/
theorem intercalate_cons_cons (t u : List Char) (ts : List (List Char)) :
    [','].intercalate (t :: u :: ts) = t ++ ',' :: [','].intercalate (u :: ts) := by
  simp [List.intercalate_cons_cons]

/-- **Items are read**, if each of them is. Of the fuel, one unit is for the row itself and the
rest for its first item or for the row behind it. -/
theorem items_of_reads {items : List (List Char × Json)} (hne : items ≠ [])
    (h : ∀ p ∈ items, Reads p.1 p.2)
    (hfuel : 2 * ([','].intercalate (items.map Prod.fst)).length + 1 ≤ fuel) (hclose : Spaces close)
    (rest : List Char) :
    Json.items fuel ([','].intercalate (items.map Prod.fst) ++ (close ++ ']' :: rest)) =
      some (items.map Prod.snd, rest) := by
  induction items generalizing fuel with
  | nil => exact absurd rfl hne
  | cons p items ih =>
    obtain ⟨hp, hitems⟩ := List.forall_mem_cons.mp h
    obtain ⟨fuel, rfl⟩ : ∃ n, fuel = n + 1 := ⟨fuel - 1, by omega⟩
    cases items with
    | nil =>
      have hstops : Stops (close ++ ']' :: rest) := stops_append hclose (stops_cons.mpr (by decide))
      rw [List.map_singleton, List.intercalate_singleton] at hfuel ⊢
      obtain ⟨b, hb, hread⟩ := hp fuel _ hstops (by omega)
      have hskip : skip (b ++ (close ++ ']' :: rest)) = ']' :: rest := by
        rw [skip_append hb, skip_sign hclose rfl]
      simp only [Json.items, hread, hskip, List.map_singleton]
    | cons q items =>
      rw [List.map_cons, List.map_cons, intercalate_cons_cons] at hfuel ⊢
      rw [List.length_append, List.length_cons] at hfuel
      have hstops : ∀ cs, Stops (',' :: cs) := fun _ => stops_cons.mpr (by decide)
      obtain ⟨b, hb, hread⟩ := hp fuel _ (hstops _) (by omega)
      have hrow := ih (List.cons_ne_nil q items) hitems
        (show 2 * ([','].intercalate ((q :: items).map Prod.fst)).length + 1 ≤ fuel by
          rw [List.map_cons]; omega)
      rw [List.map_cons, List.map_cons] at hrow
      rw [List.append_assoc, List.cons_append, Json.items, hread]
      simp only [skip_sign hb (show isSpace ',' = false from rfl), hrow, Option.map_some,
        List.map_cons]

theorem cons_of_joinPieces {ps : List Piece} {name : String} (h : joinPieces ps = some name.toList)
    (j : Json) (ms : List (String × Json)) : cons ps j (object ms) = object ((name, j) :: ms) := by
  simp only [cons, h, String.ofList_toList]

/-- A member is read up to what follows its value: the closing brace, or more members. -/
theorem members_front {m : Member} (hblanks : Spaces m.before ∧ Spaces m.gap)
    (hkey : SpellsText m.key m.name) (hread : value fuel (m.value ++ rest) = some (m.json, b ++ rest)) :
    (∀ tail, skip (b ++ rest) = '\x7d' :: tail →
      Json.members (fuel + 1) (m.text ++ rest) = some (object [(m.name, m.json)], tail)) ∧
    ∀ tail ms last, skip (b ++ rest) = ',' :: tail →
      Json.members fuel tail = some (object ms, last) →
      Json.members (fuel + 1) (m.text ++ rest) =
        some (object ((m.name, m.json) :: ms), last) := by
  obtain ⟨body, ps, hbody, hjoin, hpieces⟩ := pieces_of_spells hkey
  have htext : m.text ++ rest =
      m.before ++ '"' :: (body ++ (m.gap ++ ':' :: (m.value ++ rest))) := by
    simp only [Member.text, hbody, List.append_assoc, List.cons_append]
  have hquote := skip_sign hblanks.1 (show isSpace '"' = false from rfl)
  have hcolon := skip_sign hblanks.2 (show isSpace ':' = false from rfl)
  have hcons := cons_of_joinPieces hjoin m.json
  rw [htext, Json.members, hquote]
  simp only [hpieces, hcolon, hread]
  constructor
  · intro tail htail
    simp only [htail, hcons]
  · intro tail ms last htail hms
    simp only [htail, hms, hcons, Option.map_some]

/-- **Members are read**, if the value of each of them is. -/
theorem members_of_reads {ms : List Member} (hne : ms ≠ [])
    (hblanks : ∀ m ∈ ms, Spaces m.before ∧ Spaces m.gap)
    (hkeys : ∀ m ∈ ms, SpellsText m.key m.name) (h : ∀ m ∈ ms, Reads m.value m.json)
    (hfuel : 2 * ([','].intercalate (ms.map Member.text)).length + 1 ≤ fuel)
    (hclose : Spaces close) (rest : List Char) :
    Json.members fuel ([','].intercalate (ms.map Member.text) ++ (close ++ '\x7d' :: rest)) =
      some (object (ms.map fun m => (m.name, m.json)), rest) := by
  induction ms generalizing fuel with
  | nil => exact absurd rfl hne
  | cons m ms ih =>
    obtain ⟨hb, hblanks⟩ := List.forall_mem_cons.mp hblanks
    obtain ⟨hkey, hkeys⟩ := List.forall_mem_cons.mp hkeys
    obtain ⟨hm, hms⟩ := List.forall_mem_cons.mp h
    obtain ⟨fuel, rfl⟩ : ∃ n, fuel = n + 1 := ⟨fuel - 1, by omega⟩
    have hlength : m.value.length ≤ m.text.length := by
      simp only [Member.text, List.length_append, List.length_cons]
      omega
    cases ms with
    | nil =>
      have hstops : Stops (close ++ '\x7d' :: rest) :=
        stops_append hclose (stops_cons.mpr (by decide))
      rw [List.map_singleton, List.intercalate_singleton] at hfuel ⊢
      obtain ⟨b, hb', hread⟩ := hm fuel _ hstops (by omega)
      have hskip : skip (b ++ (close ++ '\x7d' :: rest)) = '\x7d' :: rest := by
        rw [skip_append hb', skip_sign hclose rfl]
      exact (members_front hb hkey hread).1 rest hskip
    | cons k ms =>
      rw [List.map_cons, List.map_cons, intercalate_cons_cons] at hfuel ⊢
      rw [List.length_append, List.length_cons] at hfuel
      have hstops : ∀ cs, Stops (',' :: cs) := fun _ => stops_cons.mpr (by decide)
      obtain ⟨b, hb', hread⟩ := hm fuel _ (hstops _) (by omega)
      have hrow := ih (List.cons_ne_nil k ms) hblanks hkeys hms
        (show 2 * ([','].intercalate ((k :: ms).map Member.text)).length + 1 ≤ fuel by
          rw [List.map_cons]; omega)
      rw [List.map_cons] at hrow
      rw [List.append_assoc, List.cons_append]
      exact (members_front hb hkey hread).2 _ _ _ (skip_sign hb' rfl _) hrow

/-- A digit begins a number. -/
theorem value_digit {d : Nat} (hd : d < 10) (cs : List Char) :
    value (fuel + 1) (d.digitChar :: cs) = number (d.digitChar :: cs) := by
  have hdigits : d = 0 ∨ d = 1 ∨ d = 2 ∨ d = 3 ∨ d = 4 ∨ d = 5 ∨ d = 6 ∨ d = 7 ∨ d = 8 ∨ d = 9 := by
    omega
  rcases hdigits with rfl | rfl | rfl | rfl | rfl | rfl | rfl | rfl | rfl | rfl <;> rfl

/-- A bracket with a row behind it that does not close at once opens an array. -/
theorem value_items {cs : List Char} (h : ∀ rest, skip cs ≠ ']' :: rest) :
    value (fuel + 1) ('[' :: cs) = (Json.items fuel cs).map fun (js, rest) => (array js, rest) := by
  rw [value, skip_cons (show isSpace '[' = false from rfl)]
  simp only

theorem value_members {cs : List Char} (h : ∀ rest, skip cs ≠ '\x7d' :: rest) :
    value (fuel + 1) ('\x7b' :: cs) = Json.members fuel cs := by
  rw [value, skip_cons (show isSpace '\x7b' = false from rfl)]
  simp only

theorem reads_natural (n : Nat) : Reads (Nat.toDigits 10 n) (natural n) := by
  refine reads_of_succ (opens_of_spells (.natural n)) fun fuel rest hrest _ => ?_
  have hnumber := number_toDigits n hrest
  obtain ⟨d, hd, cs, hcs, -⟩ := toDigits_front n
  rw [hcs, List.cons_append] at hnumber ⊢
  rw [value_digit hd, hnumber]

theorem reads_text {s : String} (h : SpellsText cs s) : Reads cs (text s) := by
  refine reads_of_succ (opens_of_spells (.text h)) fun fuel rest _ _ => ?_
  obtain ⟨body, ps, rfl, hjoin, hpieces⟩ := pieces_of_spells h
  rw [List.cons_append, value, skip_cons (show isSpace '"' = false from rfl)]
  simp only [hpieces, Option.map_some, ofPieces, hjoin, String.ofList_toList]

/-- An array is read if its items are; the first of them shows that it is not empty. -/
theorem reads_array {items : List (List Char × Json)} (hopens : ∀ p ∈ items, Opens p.1)
    (h : ∀ p ∈ items, Reads p.1 p.2) (hclose : Spaces close) :
    Reads ('[' :: [','].intercalate (items.map Prod.fst) ++ close ++ [']'])
      (array (items.map Prod.snd)) := by
  refine reads_of_succ (opens_cons (by decide) _) fun fuel rest _ hfuel => ?_
  simp only [List.cons_append, List.append_assoc, List.nil_append, List.length_cons,
    List.length_append] at hfuel ⊢
  cases items with
  | nil =>
    have hskip := skip_sign hclose (show isSpace ']' = false from rfl) rest
    simp only [value, skip_cons (show isSpace '[' = false from rfl), List.map_nil,
      List.intercalate_nil, List.nil_append, hskip]
  | cons p items =>
    have hrow := items_of_reads (List.cons_ne_nil p items) h
      (show 2 * ([','].intercalate ((p :: items).map Prod.fst)).length + 1 ≤ fuel by omega)
      hclose rest
    have hfront : ∃ tail, [','].intercalate ((p :: items).map Prod.fst) = p.1 ++ tail := by
      cases items with
      | nil => exact ⟨[], by simp⟩
      | cons q items => exact ⟨_, intercalate_cons_cons ..⟩
    obtain ⟨tail, htail⟩ := hfront
    have hopen := ((hopens p List.mem_cons_self).append tail).append (close ++ ']' :: rest)
    rw [← htail] at hopen
    rw [value_items hopen.not_close, hrow]
    rfl

/-- An object is read if the values of its members are. -/
theorem reads_object {ms : List Member} (hblanks : ∀ m ∈ ms, Spaces m.before ∧ Spaces m.gap)
    (hkeys : ∀ m ∈ ms, SpellsText m.key m.name) (h : ∀ m ∈ ms, Reads m.value m.json)
    (hclose : Spaces close) :
    Reads ('\x7b' :: [','].intercalate (ms.map Member.text) ++ close ++ ['\x7d'])
      (object (ms.map fun m => (m.name, m.json))) := by
  refine reads_of_succ (opens_cons (by decide) _) fun fuel rest _ hfuel => ?_
  simp only [List.cons_append, List.append_assoc, List.nil_append, List.length_cons,
    List.length_append] at hfuel ⊢
  cases ms with
  | nil =>
    have hskip := skip_sign hclose (show isSpace '\x7d' = false from rfl) rest
    simp only [value, skip_cons (show isSpace '\x7b' = false from rfl), List.map_nil,
      List.intercalate_nil, List.nil_append, hskip]
  | cons m ms =>
    have hrow := members_of_reads (List.cons_ne_nil m ms) hblanks hkeys h
      (show 2 * ([','].intercalate ((m :: ms).map Member.text)).length + 1 ≤ fuel by omega)
      hclose rest
    have hfront : ∃ tail, [','].intercalate ((m :: ms).map Member.text) =
        m.before ++ '"' :: tail := by
      obtain ⟨body, -, hbody, -⟩ := pieces_of_spells (hkeys m List.mem_cons_self)
      cases ms <;> exact ⟨_, by simp [Member.text, hbody]; rfl⟩
    obtain ⟨tail, htail⟩ := hfront
    have hopen : ∀ last, skip ([','].intercalate ((m :: ms).map Member.text) ++
        (close ++ '\x7d' :: rest)) ≠ '\x7d' :: last := by
      intro last
      rw [htail, List.append_assoc, List.cons_append,
        skip_sign (hblanks m List.mem_cons_self).1 rfl]
      exact fun heq => absurd (List.cons.inj heq).1 (by decide)
    rw [value_members hopen, hrow]

/-- **A text is read as what it means.** -/
theorem reads_of_spells {j : Json} (h : Spells cs j) : Reads cs j := by
  induction h with
  | null | true | false => exact reads_of_succ (opens_cons (by decide) _) fun _ _ _ _ => rfl
  | natural n => exact reads_natural n
  | text h => exact reads_text h
  | array h hclose ih => exact reads_array (fun p hp => opens_of_spells (h p hp)) ih hclose
  | object hblanks hkeys _ hclose ih => exact reads_object hblanks hkeys ih hclose
  | @blanks before after cs j hbefore hafter _ ih =>
    -- the blanks behind the value stay in the text, behind those that were left already
    intro fuel rest hrest hfuel
    rw [List.length_append, List.length_append] at hfuel
    obtain ⟨b, hb, hread⟩ := ih fuel (after ++ rest) (stops_append hafter hrest) (by omega)
    exact ⟨b ++ after, hb.append hafter, by
      rw [List.append_assoc, List.append_assoc, value_append hbefore, hread, List.append_assoc]⟩

/-- **The reader finds the value of every text that means one.** -/
theorem parse_of_spells {s : String} {j : Json} (h : Spells s.toList j) : parse s = some j := by
  obtain ⟨b, hb, hread⟩ := reads_of_spells h (2 * s.toList.length + 2) [] (by simp [Stops]) (by omega)
  have hskip : (skip (b ++ [])).isEmpty = true := by
    rw [skip_append hb]
    rfl
  rw [List.append_nil] at hread
  simp only [parse, hread, hskip, if_true]

end Json
end SparcIU
