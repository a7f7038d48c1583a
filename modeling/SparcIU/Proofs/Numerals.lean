/-
# Numerals are read exactly

A text is a number in a base when it is one or more digits, letters of either case,
behind at most one `+`. The reader takes these texts and no others: below its limit
it answers with their value, and at the limit or above it refuses them as too large,
however long they are. In particular what is written of a number is read back as that
number, in decimal and in hexadecimal, and with any number of zeros in front.

The grammar is stated beside the reader and without it: a digit is a character whose
lower-case letter is the one of the digit, and a row of digits is worth the number with
these digits, the last of them the units.

Key definitions: `Numeral.IsDigit`, `Numeral.Spells`.
Key theorems: `Numeral.digitValue_eq_some_iff`, `Numeral.readDigits_of_digits`,
`Numeral.readNat_of_spells`, `Numeral.spells_of_readNat`, `Numeral.spells_toDigits`,
`Numeral.readNat_padded`.
-/
import SparcIU.Text.Numeral
import Mathlib.Data.List.Forall2
import Mathlib.Data.Nat.Digits.Defs
import Mathlib.Tactic.SplitIfs

namespace SparcIU
namespace Numeral

variable {base limit : Nat} {cs : List Char} {ds : List Nat}

/-! ### Digits -/

/-- The character `c` is the digit `d` of `base`; letters are of either case. -/
def IsDigit (base : Nat) (c : Char) (d : Nat) : Prop := d < base ∧ c.toLower = d.digitChar

instance (base : Nat) (c : Char) (d : Nat) : Decidable (IsDigit base c d) :=
  inferInstanceAs (Decidable (d < base ∧ c.toLower = d.digitChar))

theorem digitValue_lt {c : Char} {d : Nat} (h : digitValue base c = some d) : d < base := by
  simp only [digitValue] at h
  split_ifs at h <;> cases h <;> assumption

/-- A digit has the same value in every base that has it. -/
theorem digitValue_rebase {base' : Nat} {c : Char} {d : Nat} (h : digitValue base c = some d)
    (hd : d < base') : digitValue base' c = some d := by
  have hlt := digitValue_lt h
  simp only [digitValue] at h ⊢
  split_ifs at h ⊢ <;> grind

theorem le_iff_toNat_le {a b : Char} : a ≤ b ↔ a.toNat ≤ b.toNat := Iff.rfl

theorem toNat_lt_of_digitValue {c : Char} {d : Nat} (h : digitValue 16 c = some d) :
    c.toNat < '\x7b'.toNat := by
  simp only [digitValue, le_iff_toNat_le, Char.reduceToNat] at h ⊢
  split_ifs at h <;> omega

theorem toNat_lt_of_toLower {c : Char} {d : Nat} (hd : d < 16) (h : c.toLower = d.digitChar) :
    c.toNat < '\x7b'.toNat := by
  by_cases hupper : 'A' ≤ c ∧ c ≤ 'Z'
  · exact Nat.lt_of_le_of_lt (le_iff_toNat_le.mp hupper.2) (by decide)
  · have hdigit : ∀ d < 16, d.digitChar.toNat < '\x7b'.toNat := by decide
    have hsame : c.toLower = c := dif_neg hupper
    rw [← hsame, h]
    exact hdigit d hd

/-- **The reader's digits are the digits.** All of them stand below the opening
brace, where the characters can be tried one by one. -/
theorem digitValue_eq_some_iff (hbase : base ≤ 16) {c : Char} {d : Nat} :
    digitValue base c = some d ↔ IsDigit base c d := by
  have htried : ∀ n < '\x7b'.toNat, ∀ d < 16,
      digitValue 16 (Char.ofNat n) = some d ↔ (Char.ofNat n).toLower = d.digitChar := by
    decide +kernel
  constructor
  · intro h
    have hlt : d < base := digitValue_lt h
    have h16 : digitValue 16 c = some d := digitValue_rebase h (by omega)
    have hchar := htried c.toNat (toNat_lt_of_digitValue h16) d (by omega)
    rw [Char.ofNat_toNat] at hchar
    exact ⟨hlt, hchar.mp h16⟩
  · rintro ⟨hlt, hlower⟩
    have hchar := htried c.toNat (toNat_lt_of_toLower (by omega) hlower) d (by omega)
    rw [Char.ofNat_toNat] at hchar
    exact digitValue_rebase (hchar.mpr hlower) hlt

/-- The character of a digit is the digit. -/
theorem isDigit_digitChar (hbase : base ≤ 16) {d : Nat} (hd : d < base) :
    IsDigit base d.digitChar d := by
  have hlower : ∀ d < 16, d.digitChar.toLower = d.digitChar := by decide
  exact ⟨hd, hlower d (by omega)⟩

theorem digitChar_ne_plus (n : Nat) : n.digitChar ≠ '+' := Nat.digitChar_ne '+' (by decide)

/-! ### Rows of digits -/

/-- One more digit in front of a row of digits. -/
theorem ofDigits_reverse_cons (d acc : Nat) :
    Nat.ofDigits base (d :: ds).reverse + base ^ (d :: ds).length * acc =
      Nat.ofDigits base ds.reverse + base ^ ds.length * (acc * base + d) := by
  rw [List.reverse_cons, Nat.ofDigits_append, Nat.ofDigits_singleton, List.length_reverse,
    List.length_cons, Nat.pow_succ]
  ring

/-- **Digits are read as their number**, below the limit, behind what was read before
them. The number only grows with each digit, so it is at the limit in the end if it is
there once. -/
theorem readDigits_of_digits (hpos : 1 ≤ base) (hbase : base ≤ 16)
    (h : List.Forall₂ (IsDigit base) cs ds) {acc : Nat} (hacc : acc < limit) :
    readDigits base limit cs acc =
      if Nat.ofDigits base ds.reverse + base ^ ds.length * acc < limit then
        .ok (Nat.ofDigits base ds.reverse + base ^ ds.length * acc)
      else .error .tooLarge := by
  induction h generalizing acc with
  | nil =>
    rw [List.reverse_nil, Nat.ofDigits_nil, List.length_nil, Nat.pow_zero, Nat.one_mul,
      Nat.zero_add, if_pos hacc, readDigits]
  | @cons c d cs ds hdigit _ ih =>
    rw [ofDigits_reverse_cons, readDigits, (digitValue_eq_some_iff hbase).mpr hdigit]
    simp only
    split
    · rename_i hbelow
      exact ih hbelow
    · rename_i habove
      have hgrow : 1 * (acc * base + d) ≤ base ^ ds.length * (acc * base + d) :=
        Nat.mul_le_mul_right _ (Nat.one_le_pow _ _ hpos)
      rw [if_neg (by omega)]

/-- Whatever is read consists of digits. -/
theorem digits_of_readDigits (hbase : base ≤ 16) {acc v : Nat}
    (h : readDigits base limit cs acc = .ok v) : ∃ ds, List.Forall₂ (IsDigit base) cs ds := by
  induction cs generalizing acc with
  | nil => exact ⟨[], .nil⟩
  | cons c cs ih =>
    rw [readDigits] at h
    split at h
    · cases h
    · rename_i d hd
      split at h
      · obtain ⟨ds, hds⟩ := ih h
        exact ⟨d :: ds, .cons ((digitValue_eq_some_iff hbase).mp hd) hds⟩
      · cases h

/-! ### Unsigned numbers -/

/-- The text `cs` is the number `n` in `base`: at most one `+`, then one or more digits,
the last of them the units. -/
inductive Spells (base : Nat) : List Char → Nat → Prop where
  | digits {cs : List Char} {ds : List Nat} (hne : cs ≠ [])
      (hdigits : List.Forall₂ (IsDigit base) cs ds) : Spells base cs (Nat.ofDigits base ds.reverse)
  | plus {cs : List Char} {ds : List Nat} (hne : cs ≠ [])
      (hdigits : List.Forall₂ (IsDigit base) cs ds) :
      Spells base ('+' :: cs) (Nat.ofDigits base ds.reverse)

/-- A text of digits has no sign. -/
theorem readNat_eq_readDigits (hne : cs ≠ []) (hplus : '+' ∉ cs) :
    readNat base limit cs = readDigits base limit cs 0 := by
  unfold readNat
  split
  · exact absurd rfl hne
  · exact absurd List.mem_cons_self hplus
  · exact absurd List.mem_cons_self hplus
  · rfl

theorem not_isDigit_plus (d : Nat) : ¬ IsDigit base '+' d := by
  rintro ⟨-, hchar⟩
  exact digitChar_ne_plus d hchar.symm

/-- Each member of a row has its partner. -/
theorem exists_partner {R : Char → Nat → Prop} (h : List.Forall₂ R cs ds) {c : Char} (hc : c ∈ cs) :
    ∃ d, R c d := by
  induction h with
  | nil => cases hc
  | @cons c' d cs ds hpartner _ ih =>
    rcases List.mem_cons.mp hc with rfl | hrest
    · exact ⟨d, hpartner⟩
    · exact ih hrest

theorem readDigits_zero_of_digits (hpos : 1 ≤ base) (hbase : base ≤ 16) (hlimit : 0 < limit)
    (h : List.Forall₂ (IsDigit base) cs ds) :
    readDigits base limit cs 0 =
      if Nat.ofDigits base ds.reverse < limit then .ok (Nat.ofDigits base ds.reverse)
      else .error .tooLarge := by
  have hread := readDigits_of_digits hpos hbase h hlimit
  rwa [Nat.mul_zero, Nat.add_zero] at hread

/-- **A number is read as itself, or refused as too large.** -/
theorem readNat_of_spells (hpos : 1 ≤ base) (hbase : base ≤ 16) (hlimit : 0 < limit) {n : Nat}
    (h : Spells base cs n) :
    readNat base limit cs = if n < limit then .ok n else .error .tooLarge := by
  cases h with
  | @digits _ ds hne hdigits =>
    have hplus : '+' ∉ cs := fun hmem =>
      let ⟨d, hd⟩ := exists_partner hdigits hmem
      not_isDigit_plus d hd
    rw [readNat_eq_readDigits hne hplus, readDigits_zero_of_digits hpos hbase hlimit hdigits]
  | @plus cs ds hne hdigits =>
    have hread : readNat base limit ('+' :: cs) = readDigits base limit cs 0 := by
      cases cs with
      | nil => exact absurd rfl hne
      | cons c cs => rfl
    rw [hread, readDigits_zero_of_digits hpos hbase hlimit hdigits]

/-- **Whatever is read is a number**, and the answer is its value. -/
theorem spells_of_readNat (hpos : 1 ≤ base) (hbase : base ≤ 16) (hlimit : 0 < limit) {n : Nat}
    (h : readNat base limit cs = .ok n) : Spells base cs n ∧ n < limit := by
  suffices hspells : ∃ m, Spells base cs m by
    obtain ⟨m, hm⟩ := hspells
    rw [readNat_of_spells hpos hbase hlimit hm] at h
    split at h
    · cases h
      exact ⟨hm, ‹_›⟩
    · cases h
  unfold readNat at h
  split at h
  · cases h
  · cases h
  · rename_i cs hne
    obtain ⟨ds, hds⟩ := digits_of_readDigits hbase h
    exact ⟨_, .plus (fun hnil => hne (by rw [hnil])) hds⟩
  · rename_i hne _ _
    obtain ⟨ds, hds⟩ := digits_of_readDigits hbase h
    exact ⟨_, .digits hne hds⟩

/-! ### Written numbers -/

/-- The text of a number consists of its digits. -/
theorem exists_digits (h2 : 2 ≤ base) (n : Nat) :
    ∃ ds, List.Forall₂ (fun c d => d < base ∧ c = d.digitChar) (Nat.toDigits base n) ds ∧
      Nat.ofDigits base ds.reverse = n := by
  induction n using Nat.strongRecOn with
  | ind n ih =>
    rw [Nat.toDigits_eq_if (by omega)]
    split
    · rename_i hlt
      exact ⟨[n], .cons ⟨hlt, rfl⟩ .nil, Nat.ofDigits_singleton⟩
    · obtain ⟨ds, hds, hvalue⟩ := ih (n / base) (Nat.div_lt_self (by omega) h2)
      have hlast : n % base < base := Nat.mod_lt n (by omega)
      refine ⟨ds ++ [n % base], List.rel_append hds (.cons ⟨hlast, rfl⟩ .nil), ?_⟩
      rw [List.reverse_append, List.reverse_singleton, List.singleton_append, Nat.ofDigits_cons,
        hvalue]
      exact Nat.mod_add_div n base

theorem mem_toDigits {n : Nat} {ch : Char} (h2 : 2 ≤ base) (h : ch ∈ Nat.toDigits base n) :
    ∃ d < base, ch = d.digitChar := by
  obtain ⟨ds, hds, -⟩ := exists_digits h2 n
  exact exists_partner hds h

/-- The letters of a written number are lower-case. -/
theorem toLower_padded (h2 : 2 ≤ base) (h16 : base ≤ 16) (k n : Nat) :
    (List.replicate k '0' ++ Nat.toDigits base n).map Char.toLower =
      List.replicate k '0' ++ Nat.toDigits base n := by
  refine (List.map_congr_left fun c hc => ?_).trans (List.map_id _)
  rcases List.mem_append.mp hc with hzero | hmem
  · rw [List.eq_of_mem_replicate hzero]
    rfl
  · obtain ⟨d, hd, rfl⟩ := mem_toDigits h2 hmem
    exact (isDigit_digitChar h16 hd).2

/-- **A written number spells itself**, with zeros in front and with letters of either
case. -/
theorem spells_toDigits (h2 : 2 ≤ base) {n k : Nat}
    (h : cs.map Char.toLower = List.replicate k '0' ++ Nat.toDigits base n) :
    Spells base cs n := by
  obtain ⟨ds, hds, hvalue⟩ := exists_digits h2 n
  have hzeros : List.Forall₂ (fun c d => d < base ∧ c = d.digitChar) (List.replicate k '0')
      (List.replicate k 0) := by
    rw [List.forall₂_iff_get]
    refine ⟨by rw [List.length_replicate, List.length_replicate], fun i _ _ => ?_⟩
    simp only [List.get_eq_getElem, List.getElem_replicate]
    exact ⟨by omega, rfl⟩
  have hrow : List.Forall₂ (IsDigit base) cs (List.replicate k 0 ++ ds) := by
    have happend := List.rel_append hzeros hds
    dsimp only at happend
    rwa [← h, List.forall₂_map_left_iff] at happend
  have hne : cs ≠ [] := by
    rintro rfl
    exact List.append_ne_nil_of_right_ne_nil _ Nat.toDigits_ne_nil h.symm
  have hnumber : Nat.ofDigits base (List.replicate k 0 ++ ds).reverse = n := by
    rw [List.reverse_append, List.reverse_replicate, Nat.ofDigits_append_replicate_zero, hvalue]
  exact hnumber ▸ Spells.digits hne hrow

/-- **What is written is read back**, with any number of zeros in front. -/
theorem readNat_padded (h2 : 2 ≤ base) (h16 : base ≤ 16) {n : Nat} (hn : n < limit) (k : Nat) :
    readNat base limit (List.replicate k '0' ++ Nat.toDigits base n) = .ok n := by
  have hspells := spells_toDigits h2 (toLower_padded h2 h16 k n)
  rw [readNat_of_spells (by omega) h16 (by omega) hspells, if_pos hn]

end Numeral
end SparcIU
