/-
# What is a number on a command line

An address argument is a number when, between the blanks at its two ends, it is
one or more digits in decimal, or in hexadecimal after `0x` or `0X`, with at most
one `+` in front of the digits, and their value fits a word. `readWord` accepts
these texts and no others, and its answer is the value: a text whose value is too
large for a word is refused, whatever its length, and not taken modulo 2^32.

Key definitions: `Text.Blanks`, `Command.Denotes`, `Command.NumberText`.
Key theorems: `Text.exists_trim`, `Text.trim_between`, `Command.readTrimmed_of_denotes`,
`Command.denotes_of_readTrimmed`, `Command.readWord_exact`.
-/
import SparcIU.Command.Number
import SparcIU.Proofs.Numerals

namespace SparcIU

/-! ### Blanks around a text -/

namespace Text

/-- The text consists of blanks. -/
def Blanks (cs : List Char) : Prop := ∀ c ∈ cs, isBlank c = true

instance (cs : List Char) : Decidable (Blanks cs) := List.decidableBAll _ cs

/-- A text is what is left of it between blanks. -/
theorem exists_trim (cs : List Char) :
    ∃ l r, cs = l ++ trim cs ++ r ∧ Blanks l ∧ Blanks r := by
  have hblank : ∀ cs : List Char, Blanks (cs.takeWhile isBlank) := fun cs =>
    List.all_eq_true.mp List.all_takeWhile
  have hleft := List.takeWhile_append_dropWhile (p := isBlank) (l := cs)
  have hright :=
    List.takeWhile_append_dropWhile (p := isBlank) (l := (cs.dropWhile isBlank).reverse)
  refine ⟨cs.takeWhile isBlank, ((cs.dropWhile isBlank).reverse.takeWhile isBlank).reverse, ?_,
    hblank cs, fun c hc => hblank _ c (List.mem_reverse.mp hc)⟩
  rw [List.append_assoc, trim, ← List.reverse_append, hright, List.reverse_reverse, hleft]

/-- A character that is no blank is not taken away. -/
theorem trim_ne_nil {cs : List Char} {c : Char} (hc : c ∈ cs) (hblank : isBlank c = false) :
    trim cs ≠ [] := by
  intro hnil
  obtain ⟨l, r, hcs, hl, hr⟩ := exists_trim cs
  rw [hnil, List.append_nil] at hcs
  rw [hcs] at hc
  have hc : isBlank c = true := (List.mem_append.mp hc).elim (hl c) (hr c)
  rw [hblank] at hc
  cases hc

/-- **Blanks around a text without blanks do not count.** -/
theorem trim_between {l body r : List Char} (hl : Blanks l) (hr : Blanks r)
    (hbody : ∀ c ∈ body, isBlank c = false) : trim (l ++ body ++ r) = body := by
  have hkept : ∀ {cs : List Char} (rest : List Char), cs ≠ [] → (∀ c ∈ cs, isBlank c = false) →
      (cs ++ rest).dropWhile isBlank = cs ++ rest := by
    intro cs rest hne h
    cases cs with
    | nil => exact absurd rfl hne
    | cons c cs => exact List.dropWhile_cons_of_neg (by simp [h c List.mem_cons_self])
  rw [trim, List.append_assoc, List.dropWhile_append_of_pos hl]
  by_cases hne : body = []
  · have hnone : r.dropWhile isBlank = [] := by
      have hall : (r ++ []).dropWhile isBlank = [] := List.dropWhile_append_of_pos hr
      rwa [List.append_nil] at hall
    rw [hne, List.nil_append, hnone]
    rfl
  · have hr' : Blanks r.reverse := fun c hc => hr c (List.mem_reverse.mp hc)
    have hbody' : ∀ c ∈ body.reverse, isBlank c = false := fun c hc =>
      hbody c (List.mem_reverse.mp hc)
    have hlast := hkept [] (List.reverse_ne_nil_iff.mpr hne) hbody'
    rw [List.append_nil] at hlast
    rw [hkept r hne hbody, List.reverse_append, List.dropWhile_append_of_pos hr', hlast,
      List.reverse_reverse]

/-- No digit is a blank. -/
theorem not_isBlank_digit {base : Nat} (hbase : base ≤ 16) {c : Char} {d : Nat}
    (h : Numeral.IsDigit base c d) : isBlank c = false := by
  have htried : ∀ n < '\x7b'.toNat, ∀ d < 16, (Char.ofNat n).toLower = d.digitChar →
      isBlank (Char.ofNat n) = false := by
    decide +kernel
  obtain ⟨hlt, hlower⟩ := h
  have hd : d < 16 := by omega
  have hchar := htried c.toNat (Numeral.toNat_lt_of_toLower hd hlower) d hd
  rw [Char.ofNat_toNat] at hchar
  exact hchar hlower

end Text

/-! ### Address arguments -/

namespace Command

open Numeral Text

/-- The text of the number `n` without blanks around it: decimal, or hexadecimal after its
prefix. -/
inductive Denotes : List Char → Nat → Prop where
  | decimal {cs : List Char} {n : Nat} (h : Spells 10 cs n) : Denotes cs n
  | hexadecimal {x : Char} {cs : List Char} {n : Nat} (hx : x = 'x' ∨ x = 'X')
      (h : Spells 16 cs n) : Denotes ('0' :: x :: cs) n

/-- The text of the number `n` with blanks at both ends. -/
def NumberText (s : String) (n : Nat) : Prop :=
  ∃ l body r, s.toList = l ++ body ++ r ∧ Blanks l ∧ Blanks r ∧ Denotes body n

/-- Numbers have no blanks in them. -/
theorem not_isBlank_of_spells {base : Nat} (hbase : base ≤ 16) {cs : List Char} {n : Nat}
    (h : Spells base cs n) : ∀ c ∈ cs, isBlank c = false := by
  have hrow : ∀ {cs : List Char} {ds : List Nat}, List.Forall₂ (IsDigit base) cs ds →
      ∀ c ∈ cs, isBlank c = false := fun hdigits _ hc =>
    let ⟨_, hd⟩ := exists_partner hdigits hc
    not_isBlank_digit hbase hd
  cases h with
  | digits _ hdigits => exact hrow hdigits
  | plus _ hdigits => exact List.forall_mem_cons.mpr ⟨by decide, hrow hdigits⟩

theorem not_isBlank_of_denotes {cs : List Char} {n : Nat} (h : Denotes cs n) :
    ∀ c ∈ cs, isBlank c = false := by
  cases h with
  | decimal h => exact not_isBlank_of_spells (by decide) h
  | hexadecimal hx h =>
    refine List.forall_mem_cons.mpr ⟨by decide, List.forall_mem_cons.mpr ⟨?_, ?_⟩⟩
    · rcases hx with rfl | rfl <;> decide
    · exact not_isBlank_of_spells (by decide) h

/-- A decimal number is not taken for a hexadecimal one: neither `x` is a digit of it. -/
theorem not_spells_prefixed {x : Char} (hx : x = 'x' ∨ x = 'X') (cs : List Char) (n : Nat) :
    ¬ Spells 10 ('0' :: x :: cs) n := by
  have hdigit : ∀ d, ¬ IsDigit 10 x d := by
    rintro d ⟨hlt, hlower⟩
    have hchars : ∀ d < 10, 'x'.toLower ≠ d.digitChar ∧ 'X'.toLower ≠ d.digitChar := by decide
    rcases hx with rfl | rfl
    · exact (hchars d hlt).1 hlower
    · exact (hchars d hlt).2 hlower
  intro h
  cases h with
  | digits _ hdigits =>
    obtain ⟨d, hd⟩ := exists_partner hdigits (List.mem_cons_of_mem _ List.mem_cons_self)
    exact hdigit d hd

/-- **The text of a number is read as the number, or refused as too large.** -/
theorem readTrimmed_of_denotes {cs : List Char} {n : Nat} (h : Denotes cs n) :
    readTrimmed cs = if n < 2 ^ 32 then .ok n else .error .tooLarge := by
  cases h with
  | hexadecimal hx h =>
    have hread := readNat_of_spells (by decide) (by decide) (show 0 < 2 ^ 32 by decide) h
    rcases hx with rfl | rfl <;> exact hread
  | decimal h =>
    have hread := readNat_of_spells (by decide) (by decide) (show 0 < 2 ^ 32 by decide) h
    unfold readTrimmed
    split
    · exact absurd h (not_spells_prefixed (.inl rfl) _ _)
    · exact absurd h (not_spells_prefixed (.inr rfl) _ _)
    · exact hread

/-- **What is read is the text of a number.** -/
theorem denotes_of_readTrimmed {cs : List Char} {n : Nat} (h : readTrimmed cs = .ok n) :
    Denotes cs n ∧ n < 2 ^ 32 := by
  unfold readTrimmed at h
  split at h
  · obtain ⟨hspells, hlt⟩ := spells_of_readNat (by decide) (by decide) (by decide) h
    exact ⟨.hexadecimal (.inl rfl) hspells, hlt⟩
  · obtain ⟨hspells, hlt⟩ := spells_of_readNat (by decide) (by decide) (by decide) h
    exact ⟨.hexadecimal (.inr rfl) hspells, hlt⟩
  · obtain ⟨hspells, hlt⟩ := spells_of_readNat (by decide) (by decide) (by decide) h
    exact ⟨.decimal hspells, hlt⟩

/-- An argument that is a number, of any size. -/
theorem readWord_of_numberText {s : String} {n : Nat} (h : NumberText s n) :
    readWord s = if n < 2 ^ 32 then .ok (UInt32.ofNat n) else .error .tooLarge := by
  obtain ⟨l, body, r, hs, hl, hr, hbody⟩ := h
  have htrim : trim s.toList = body := by
    rw [hs, trim_between hl hr (not_isBlank_of_denotes hbody)]
  rw [readWord, htrim, readTrimmed_of_denotes hbody]
  by_cases hlt : n < 2 ^ 32
  · rw [if_pos hlt, if_pos hlt]
  · rw [if_neg hlt, if_neg hlt]

/-- An argument that is read. -/
theorem numberText_of_readWord {s : String} {v : Word} (h : readWord s = .ok v) :
    NumberText s v.toNat := by
  unfold readWord at h
  split at h
  · rename_i n hn
    obtain ⟨hdenotes, hlt⟩ := denotes_of_readTrimmed hn
    obtain ⟨l, r, hs, hl, hr⟩ := exists_trim s.toList
    cases h
    rw [UInt32.toNat_ofNat_of_lt' hlt]
    exact ⟨l, _, r, hs, hl, hr, hdenotes⟩
  · cases h

/-- **Number arguments are read exactly.** An argument is accepted with the value `v` just when
it is the text of the number `v` between blanks; every other one is refused, and one that is the
text of a larger number is refused for that. In particular the decimal and the hexadecimal text
of every word are read as that word, with any number of zeros in front, letters of either case
and any blanks at the ends. -/
theorem readWord_exact :
    (∀ (s : String) (v : Word), readWord s = .ok v ↔ NumberText s v.toNat) ∧
      (∀ s : String, (∀ n < 2 ^ 32, ¬ NumberText s n) → ∃ e, readWord s = .error e) ∧
      (∀ (s : String) (n : Nat), NumberText s n → 2 ^ 32 ≤ n → readWord s = .error .tooLarge) ∧
      ∀ (v : Word) (k : Nat) (l r digits : List Char), Blanks l → Blanks r →
        (digits = List.replicate k '0' ++ Nat.toDigits 10 v.toNat →
          readWord (String.ofList (l ++ digits ++ r)) = .ok v) ∧
        (digits.map Char.toLower = List.replicate k '0' ++ Nat.toDigits 16 v.toNat →
          readWord (String.ofList (l ++ '0' :: 'x' :: digits ++ r)) = .ok v ∧
          readWord (String.ofList (l ++ '0' :: 'X' :: digits ++ r)) = .ok v) := by
  have haccept : ∀ (s : String) (v : Word), NumberText s v.toNat → readWord s = .ok v := by
    intro s v htext
    rw [readWord_of_numberText htext, if_pos v.toNat_lt, UInt32.ofNat_toNat]
  refine ⟨fun s v => ⟨numberText_of_readWord, haccept s v⟩, fun s hother => ?_,
    fun s n htext hlarge => ?_, fun v k l r digits hl hr => ⟨fun hdigits => ?_, fun hdigits => ?_⟩⟩
  · cases hread : readWord s with
    | error e => exact ⟨e, rfl⟩
    | ok v => exact absurd (numberText_of_readWord hread) (hother v.toNat v.toNat_lt)
  · rw [readWord_of_numberText htext, if_neg (by omega)]
  · have hspells : Spells 10 digits v.toNat := by
      refine spells_toDigits (k := k) (by decide) ?_
      rw [hdigits, toLower_padded (by decide) (by decide)]
    exact haccept _ v ⟨l, digits, r, String.toList_ofList, hl, hr, .decimal hspells⟩
  · have hspells : Spells 16 digits v.toNat := spells_toDigits (by decide) hdigits
    exact ⟨haccept _ v ⟨l, _, r, String.toList_ofList, hl, hr, .hexadecimal (.inl rfl) hspells⟩,
      haccept _ v ⟨l, _, r, String.toList_ofList, hl, hr, .hexadecimal (.inr rfl) hspells⟩⟩

/-- All the corners at once: blanks of both kinds, the prefix, the sign, zeros in front and
letters of either case; and the first number that fits no word. -/
theorem readWord_exact_corners :
    NumberText "\u00a0\t0X+00fF\n" 255 ∧ readWord "\u00a0\t0X+00fF\n" = .ok 255 ∧
      readWord "4294967296" = .error .tooLarge ∧ readWord "0x000ffFFffFF " = .ok 0xffffffff := by
  obtain ⟨haccept, -, hlarge, hwritten⟩ := readWord_exact
  have htext : NumberText "\u00a0\t0X+00fF\n" 255 := by
    refine ⟨['\u00a0', '\t'], ['0', 'X', '+', '0', '0', 'f', 'F'], ['\n'], rfl,
      by decide, by decide, .hexadecimal (.inr rfl) ?_⟩
    have hdigits : List.Forall₂ (IsDigit 16) ['0', '0', 'f', 'F'] [0, 0, 15, 15] :=
      .cons (by decide) (.cons (by decide) (.cons (by decide) (.cons (by decide) .nil)))
    exact .plus (List.cons_ne_nil _ _) hdigits
  have hfirst : NumberText "4294967296" 4294967296 := by
    refine ⟨[], Nat.toDigits 10 4294967296, [], by decide, by decide, by decide, .decimal ?_⟩
    exact spells_toDigits (k := 0) (by decide) (by decide)
  have htop := (hwritten 0xffffffff 3 [] [' '] "000ffFFffFF".toList (by decide) (by decide)).2
    (by decide)
  exact ⟨htext, (haccept _ 255).mpr htext, hlarge _ _ hfirst (by decide), htop.1⟩

end Command
end SparcIU
