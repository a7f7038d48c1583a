/-
# Texts of flag sets are read back

The text of a word names the flags that are set and gives what they do not cover as
one number. Whatever pieces stand in such a text, they are read as their own bits and
joined, in any order; and the pieces of a word have its bits together, those of a
partly set mask and those of no flag included.

Key definitions: `Flags.isIdentifier`, `Flags.Sound`, `Flags.IsPiece`.
Key theorems: `Flags.union_pieces`, `Flags.isPiece_of_mem_pieces`, `Flags.ofText?_text`.
-/
import SparcIU.Flags
import SparcIU.Proofs.NumberArguments

namespace SparcIU
namespace Flags

open Text

/-! ### Tables -/

/-- A letter or an underscore, then letters, digits and underscores. -/
def isIdentifier : List Char → Bool
  | [] => false
  | c :: cs => (c.isAlpha || c == '_') && cs.all fun d => d.isAlphanum || d == '_'

/-- The flags of a table are told apart by their names and share no bits. -/
structure Sound (t : Flags) : Prop where
  names : (t.map Prod.fst).Nodup
  identifiers : ∀ f ∈ t, isIdentifier f.1.toList
  nonzero : ∀ f ∈ t, f.2 ≠ 0
  disjoint : t.Pairwise fun f g => f.2 &&& g.2 = 0

/-- A piece of a text: a flag of the table by its name, or bits as a number. -/
def IsPiece (t : Flags) (p : String × Word) : Prop := p ∈ t ∨ p.1 = Numeral.hex p.2.toNat

variable {t ps : Flags} {p : String × Word}

/-! ### The bits of the pieces -/

theorem union_cons (p : String × Word) (ps : Flags) : union (p :: ps) = p.2 ||| ps.union := rfl

theorem and_or_distrib (w a b : Word) : w &&& (a ||| b) = w &&& a ||| w &&& b :=
  UInt32.toBitVec_inj.mp BitVec.and_or_distrib_left

theorem and_union_named (t : Flags) (w : Word) : w &&& (t.named w).union = (t.named w).union := by
  have hset : ∀ f ∈ t.named w, w &&& f.2 = f.2 := fun f hf =>
    of_decide_eq_true (List.mem_filter.mp hf).2
  generalize t.named w = fs at hset
  induction fs with
  | nil => exact UInt32.and_zero
  | cons f fs ih =>
    obtain ⟨hf, hfs⟩ := List.forall_mem_cons.mp hset
    rw [union_cons, and_or_distrib, hf, ih hfs]

theorem union_append (ps qs : Flags) : (ps ++ qs).union = ps.union ||| qs.union := by
  induction ps with
  | nil => exact UInt32.zero_or.symm
  | cons p ps ih => rw [List.cons_append, union_cons, union_cons, ih, UInt32.or_assoc]

/-- What is taken out of a word is put back. -/
theorem or_and_not {a w : Word} (h : w &&& a = a) : a ||| (w &&& ~~~a) = w := by
  have hbit : ∀ a b : Bool, (a && b || (a && !(a && b))) = a := by decide
  rw [← h]
  apply UInt32.toBitVec_inj.mp
  ext i hi
  simpa using hbit w.toBitVec[i] a.toBitVec[i]

/-- **The pieces of a word have its bits.** -/
theorem union_pieces (t : Flags) (w : Word) : (t.pieces w).union = w := by
  have hrest : Flags.union (if t.leftover w = 0 then []
      else [(Numeral.hex (t.leftover w).toNat, t.leftover w)]) = t.leftover w := by
    split
    · rename_i hzero
      exact hzero.symm
    · exact UInt32.or_zero
  rw [pieces, union_append, hrest]
  exact or_and_not (and_union_named t w)

theorem isPiece_of_mem_pieces {w : Word} (h : p ∈ t.pieces w) : IsPiece t p := by
  rcases List.mem_append.mp h with hnamed | hrest
  · exact .inl (List.mem_of_mem_filter hnamed)
  · split at hrest
    · cases hrest
    · rw [List.mem_singleton.mp hrest]
      exact .inr rfl

/-! ### One piece -/

/-- The text of a piece is read as its bits, and nothing in it can be taken for the text around
it. -/
structure ReadsPiece (t : Flags) (p : String × Word) : Prop where
  read : t.pieceBits p.1.toList = some p.2
  noBar : '|' ∉ p.1.toList
  noBlank : ∀ c ∈ p.1.toList, isBlank c = false
  ne_nil : p.1.toList ≠ []

theorem toNat_lt_of_isAlphanum {c : Char} (h : (c.isAlphanum || c == '_') = true) :
    c.toNat < 0x80 := by
  have hranges : (decide ('A'.val ≤ c.val ∧ c.val ≤ 'Z'.val) ||
      decide ('a'.val ≤ c.val) && decide (c.val ≤ 'z'.val) ||
      decide ('0'.val ≤ c.val) && decide (c.val ≤ '9'.val) || c == '_') = true := h
  simp only [Bool.or_eq_true, Bool.and_eq_true, decide_eq_true_eq, beq_iff_eq,
    UInt32.le_iff_toNat_le] at hranges
  rcases hranges with ((h | h) | h) | rfl
  · exact Nat.lt_of_le_of_lt h.2 (by decide)
  · exact Nat.lt_of_le_of_lt h.2 (by decide)
  · exact Nat.lt_of_le_of_lt h.2 (by decide)
  · decide

/-- The characters of a name are no blanks and no separators. -/
theorem ne_bar_of_isAlphanum {c : Char} (h : (c.isAlphanum || c == '_') = true) :
    c ≠ '|' ∧ isBlank c = false := by
  have htried : ∀ n < 0x80, ((Char.ofNat n).isAlphanum || Char.ofNat n == '_') = true →
      Char.ofNat n ≠ '|' ∧ isBlank (Char.ofNat n) = false := by decide
  have hchar := htried c.toNat (toNat_lt_of_isAlphanum h)
  rw [Char.ofNat_toNat] at hchar
  exact hchar h

theorem lookup_of_mem (hnames : (t.map Prod.fst).Nodup) (hp : p ∈ t) : t.lookup p.1 = some p.2 := by
  obtain ⟨l, r, rfl⟩ := List.append_of_mem hp
  rw [List.map_append, List.map_cons] at hnames
  refine List.lookup_eq_some_iff.mpr ⟨l, r, rfl, fun q hq => bne_iff_ne.mpr fun heq => ?_⟩
  exact (List.nodup_append.mp hnames).2.2 q.1 (List.mem_map_of_mem hq) p.1 List.mem_cons_self
    heq.symm

theorem readsPiece_flag (ht : t.Sound) (hp : p ∈ t) : ReadsPiece t p := by
  have hid := ht.identifiers p hp
  obtain ⟨c, cs, hname⟩ : ∃ c cs, p.1.toList = c :: cs := by
    cases hname : p.1.toList with
    | nil => simp [hname, isIdentifier] at hid
    | cons c cs => exact ⟨c, cs, rfl⟩
  rw [hname, isIdentifier, Bool.and_eq_true, List.all_eq_true] at hid
  obtain ⟨hc, hcs⟩ := hid
  have hfacts : ∀ d ∈ p.1.toList, d ≠ '|' ∧ isBlank d = false := by
    intro d hd
    rw [hname] at hd
    rcases List.mem_cons.mp hd with rfl | hd
    · refine ne_bar_of_isAlphanum ?_
      show (d.isAlpha || d.isDigit || d == '_') = true
      rw [Bool.or_right_comm, hc, Bool.true_or]
    · exact ne_bar_of_isAlphanum (hcs d hd)
  have hletter : c ≠ '0' := by
    rintro rfl
    exact absurd hc (by decide)
  refine ⟨?_, fun hmem => (hfacts _ hmem).1 rfl, fun d hd => (hfacts d hd).2, by simp [hname]⟩
  rw [← lookup_of_mem ht.names hp, hname, pieceBits, ← hname, String.ofList_toList]
  exact fun _ heq => hletter (List.cons.inj heq).1

theorem readsPiece_hex (t : Flags) (w : Word) : ReadsPiece t (Numeral.hex w.toNat, w) := by
  have htext : (Numeral.hex w.toNat).toList = '0' :: 'x' :: Nat.toDigits 16 w.toNat := by
    simp [Numeral.hex, Numeral.hexDigits]
  have hdigit : ∀ d < 16, d.digitChar ≠ '|' ∧ isBlank d.digitChar = false := by decide
  have hchars : ∀ c ∈ (Numeral.hex w.toNat).toList, c ≠ '|' ∧ isBlank c = false := by
    rw [htext]
    refine List.forall_mem_cons.mpr ⟨by decide, List.forall_mem_cons.mpr ⟨by decide, ?_⟩⟩
    intro c hc
    obtain ⟨d, hd, rfl⟩ := Numeral.mem_toDigits (by decide) hc
    exact hdigit d hd
  have hread : Numeral.readNat 16 0x100000000 (List.replicate 0 '0' ++ Nat.toDigits 16 w.toNat) =
      .ok w.toNat := Numeral.readNat_padded (by decide) (by decide) w.toNat_lt 0
  rw [List.replicate_zero, List.nil_append] at hread
  refine ⟨?_, fun hmem => (hchars _ hmem).1 rfl, fun c hc => (hchars c hc).2, by simp [htext]⟩
  show t.pieceBits (Numeral.hex w.toNat).toList = some w
  rw [htext]
  simp only [pieceBits, hread, UInt32.ofNat_toNat]

theorem readsPiece (ht : t.Sound) (h : IsPiece t p) : ReadsPiece t p := by
  rcases h with hflag | hhex
  · exact readsPiece_flag ht hflag
  · obtain ⟨name, w⟩ := p
    rw [show name = Numeral.hex w.toNat from hhex]
    exact readsPiece_hex t w

/-! ### Joined pieces -/

theorem splitBars_of_notMem {cs : List Char} (h : '|' ∉ cs) : splitBars cs = [cs] := by
  induction cs with
  | nil => rfl
  | cons c cs ih =>
    obtain ⟨hc, hcs⟩ := not_or.mp (mt List.mem_cons.mpr h)
    rw [splitBars, if_neg (Ne.symm hc), ih hcs]

theorem splitBars_append {cs : List Char} (h : '|' ∉ cs) (ds : List Char) :
    splitBars (cs ++ '|' :: ds) = cs :: splitBars ds := by
  induction cs with
  | nil => rw [List.nil_append, splitBars, if_pos rfl]
  | cons c cs ih =>
    obtain ⟨hc, hcs⟩ := not_or.mp (mt List.mem_cons.mpr h)
    rw [List.cons_append, splitBars, if_neg (Ne.symm hc), ih hcs]

theorem Blanks.noBar {b : List Char} (h : Blanks b) : '|' ∉ b := fun hmem =>
  absurd (h _ hmem) (by decide)

/-- The texts of the pieces with the separator between them. -/
def joined (ps : Flags) : List Char := [' ', '|', ' '].intercalate (ps.map fun p => p.1.toList)

theorem toList_text (ps : Flags) : (text ps).toList = joined ps := by
  rw [text, String.toList_intercalate, List.map_map]
  rfl

theorem joined_cons (p q : String × Word) (ps : Flags) :
    joined (p :: q :: ps) = p.1.toList ++ [' '] ++ '|' :: ([' '] ++ joined (q :: ps)) := by
  simp [joined, List.intercalate_cons_cons]

/-- **Joined pieces are read as their bits**, behind any blanks. -/
theorem joinBits_joined (h : ∀ p ∈ ps, ReadsPiece t p) (hne : ps ≠ []) {b : List Char}
    (hb : Blanks b) : t.joinBits (splitBars (b ++ joined ps)) = some ps.union := by
  induction ps generalizing b with
  | nil => exact absurd rfl hne
  | cons p ps ih =>
    obtain ⟨hp, hps⟩ := List.forall_mem_cons.mp h
    have hbar : '|' ∉ b ++ p.1.toList := fun hmem =>
      (List.mem_append.mp hmem).elim (Blanks.noBar hb) hp.noBar
    cases ps with
    | nil =>
      have hjoined : joined [p] = p.1.toList := List.intercalate_singleton
      have htrim : trim (b ++ p.1.toList) = p.1.toList := by
        have hbetween := trim_between hb (List.forall_mem_nil _) hp.noBlank
        rwa [List.append_nil] at hbetween
      rw [hjoined, splitBars_of_notMem hbar, joinBits, htrim, hp.read, joinBits, union_cons]
      rfl
    | cons q ps =>
      have hblank : Blanks [' '] := by decide
      have hbar' : '|' ∉ b ++ p.1.toList ++ [' '] := fun hmem =>
        (List.mem_append.mp hmem).elim hbar (by decide)
      have htrim : trim (b ++ p.1.toList ++ [' ']) = p.1.toList :=
        trim_between hb hblank hp.noBlank
      have hrest := ih hps (List.cons_ne_nil q ps) hblank
      rw [joined_cons, ← List.append_assoc, ← List.append_assoc, splitBars_append hbar', joinBits,
        htrim, hp.read, hrest, union_cons p]

/-- **A text of pieces is read as their bits.** Without pieces the text is empty and stands for
the word without bits. -/
theorem ofText?_text (ht : t.Sound) (h : ∀ p ∈ ps, IsPiece t p) :
    t.ofText? (text ps) = some ps.union := by
  have hreads : ∀ p ∈ ps, ReadsPiece t p := fun p hp => readsPiece ht (h p hp)
  rw [ofText?, toList_text]
  cases ps with
  | nil => rfl
  | cons p ps =>
    obtain ⟨hp, -⟩ := List.forall_mem_cons.mp hreads
    obtain ⟨c, cs, hcs⟩ := List.exists_cons_of_ne_nil hp.ne_nil
    have hchar : c ∈ p.1.toList := hcs ▸ List.mem_cons_self
    have hmem : c ∈ joined (p :: ps) := by
      cases ps with
      | nil => simpa [joined] using hchar
      | cons q ps =>
        rw [joined_cons, List.append_assoc]
        exact List.mem_append_left _ hchar
    have hfull : ¬ (trim (joined (p :: ps))).isEmpty = true := fun hempty =>
      trim_ne_nil hmem (hp.noBlank c hchar) (List.isEmpty_iff.mp hempty)
    rw [if_neg hfull]
    exact joinBits_joined hreads (List.cons_ne_nil p ps) (List.forall_mem_nil _)

end Flags
end SparcIU
