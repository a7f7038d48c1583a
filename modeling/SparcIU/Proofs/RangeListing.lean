/-
# What a listing shows

The rows of a range begin with the word around its start and go on word by word, each at the
next address, as long as the range has not ended and the word is mapped. So they are the
longest run of mapped words there (`Image.getElem?_rowsFrom`, `Image.rowsFrom_stops`). The
end of the range is an address, so the run ends below 2^32 and no address wraps. A byte is
mapped where a segment covers its address, and a word where all four of its bytes are. As
text each row is one line, and the bytes on it are those of the image: what the order of
the image puts together as a word, the same order takes apart again.

Key definitions: `hexByte`, `shownLine`.
Key theorems: `Image.getElem?_rowsFrom`, `Image.rowsFrom_stops`,
`Image.readByte_eq_none_iff`, `Image.readByte_of_readWord`, `Row.splitOn_render`,
`listing_exact`.
-/
import SparcIU.Command.ListImage
import SparcIU.Proofs.Assembler
import SparcIU.Proofs.Bytes
import SparcIU.Proofs.Mapping

namespace SparcIU

/-! ### Rows -/

namespace Image

variable {img : Image} {stop pc : Word} {k : Nat} {r : Row}

/-- **Row `k` shows the word `k` words on**, below the end. -/
theorem getElem?_rowsFrom (h : (img.rowsFrom stop pc)[k]? = some r) :
    pc.toNat + 4 * k < stop.toNat ∧ r.addr = UInt32.ofNat (pc.toNat + 4 * k) ∧
      img.readWord r.addr = some r.word := by
  fun_induction rowsFrom img stop pc generalizing k with
  | case1 pc hlt hnone => cases h
  | case2 pc hlt word hword ih =>
    cases k with
    | zero =>
      cases h
      exact ⟨UInt32.lt_iff_toNat_lt.mp hlt, UInt32.ofNat_toNat.symm, hword⟩
    | succ k =>
      rw [List.getElem?_cons_succ] at h
      split at h
      · rename_i hspace
        have hrow := ih hspace h
        rwa [Word.toNat_add_four hspace,
          show pc.toNat + 4 + 4 * k = pc.toNat + 4 * (k + 1) by omega] at hrow
      · cases h
  | case3 pc hge => cases h

/-- **The rows end at the end of the range or in front of a word that is not mapped.** Behind
the last word of the address space the range has ended. -/
theorem rowsFrom_stops (img : Image) (stop pc : Word) :
    stop.toNat ≤ pc.toNat + 4 * (img.rowsFrom stop pc).length ∨
      img.readWord (UInt32.ofNat (pc.toNat + 4 * (img.rowsFrom stop pc).length)) = none := by
  fun_induction rowsFrom img stop pc with
  | case1 pc hlt hnone =>
    refine .inr ?_
    rw [List.length_nil, Nat.mul_zero, Nat.add_zero, UInt32.ofNat_toNat]
    exact hnone
  | case2 pc hlt word hword ih =>
    split
    · rename_i hspace
      have hrest := ih hspace
      rwa [Word.toNat_add_four hspace, Nat.add_assoc, Nat.add_comm 4, ← Nat.mul_add_one,
        ← List.length_cons] at hrest
    · -- no address is behind the last word
      have hstop := stop.toNat_lt
      refine .inl ?_
      rw [List.length_singleton]
      omega
  | case3 pc hge =>
    have hle := mt UInt32.lt_iff_toNat_lt.mpr hge
    refine .inl ?_
    rw [List.length_nil]
    omega

/-! ### Bytes -/

/-- A byte is read wherever a segment covers its address, and nowhere else. -/
theorem readByte_eq_none_iff {a : Word} :
    img.readByte a = none ↔ ∀ s ∈ img.segments, ¬ s.covers a := by
  unfold readByte
  cases hfind : img.segments.find? (·.covers a) with
  | none => exact iff_of_true rfl (List.find?_eq_none.mp hfind)
  | some s =>
    have hcovers : s.covers a := List.find?_some (p := fun s : Segment => s.covers a) hfind
    have hmem := List.mem_of_find?_eq_some hfind
    refine iff_of_false ?_ fun hnone => hnone s hmem hcovers
    simp only [Segment.readByte]
    rw [getElem?_pos s.bytes _ (Segment.lt_size_of_covers hcovers)]
    exact Option.some_ne_none _

/-- The bytes of a word that is read are those at its address and behind it. -/
theorem readByte_of_readWord {a w : Word} (h : img.readWord a = some w) :
    ∀ j < 4, img.readByte (a + UInt32.ofNat j) = (img.order.bytes w)[j]? := by
  unfold readWord at h
  split at h
  · rename_i b₀ b₁ b₂ b₃ h₀ h₁ h₂ h₃
    cases h
    intro j hj
    rw [ByteOrder.bytes_word]
    match j, hj with
    | 0, _ => rwa [show a + UInt32.ofNat 0 = a from UInt32.add_zero a]
    | 1, _ => exact h₁
    | 2, _ => exact h₂
    | 3, _ => exact h₃
  · cases h

end Image

/-! ### Lines -/

/-- A byte as two hexadecimal digits. -/
def hexByte (b : UInt8) : String :=
  String.ofList [Nat.digitChar (b.toNat / 16), Nat.digitChar (b.toNat % 16)]

/-- The line of a word: its address, if wanted its bytes, and its text. -/
def shownLine (showBytes : Bool) (addr : Nat) (bs : List UInt8) (text : String) : String :=
  Numeral.hexPadded 8 addr ++ ": " ++
    (if showBytes then String.join (bs.map fun b => hexByte b ++ " ") ++ "  " else "") ++ text

theorem paddedDigits_two (b : UInt8) : Numeral.paddedDigits 2 b.toNat = hexByte b := by
  have hlt := b.toNat_lt
  unfold Numeral.paddedDigits hexByte
  rw [Nat.toDigits_eq_if (by decide)]
  split
  · rename_i hsmall
    rw [Nat.div_eq_of_lt hsmall, Nat.mod_eq_of_lt hsmall]
    rfl
  · rw [Nat.toDigits_eq_if (by decide), if_pos (by omega)]
    rfl

namespace Row

variable {order : ByteOrder} {showBytes : Bool}

theorem line_eq (r : Row) : r.line showBytes order =
    shownLine showBytes r.addr.toNat (order.bytes r.word) r.text ++ "\n" := by
  unfold line shownLine bytesText
  simp only [paddedDigits_two]

theorem newline_notMem_text (r : Row) : '\n' ∉ r.text.toList :=
  Instr.newline_notMem_text (Word.ofTarget?_hex r.addr) (fun _ => foreign_newline.notMem_hex _) _

theorem newline_notMem_hexByte (b : UInt8) : '\n' ∉ (hexByte b).toList := by
  have hdigit := foreign_newline.digit
  simp [hexByte, (hdigit _).symm]

theorem newline_notMem_line (r : Row) :
    '\n' ∉ (shownLine showBytes r.addr.toNat (order.bytes r.word) r.text).toList := by
  unfold shownLine
  cases showBytes with
  | false => simp [foreign_newline.notMem_hexPadded, r.newline_notMem_text]
  | true =>
    simp [foreign_newline.notMem_hexPadded, r.newline_notMem_text, newline_notMem_hexByte]

/-- Lines that each end in a line break, one after the other, split at the breaks. -/
theorem splitOn_lines {ch : Char} {lines : List (List Char)} (h : ∀ l ∈ lines, ch ∉ l) :
    (lines.flatMap (· ++ [ch])).splitOn ch = lines ++ [[]] := by
  have hjoin : lines.flatMap (· ++ [ch]) = [ch].intercalate (lines ++ [[]]) := by
    clear h
    induction lines with
    | nil => rfl
    | cons l lines ih =>
      rw [List.flatMap_cons, ih]
      cases lines with
      | nil => simp
      | cons l' lines => simp [List.intercalate_cons_cons]
  rw [hjoin]
  refine List.splitOn_intercalate ch ?_ (by simp)
  intro l hl
  rcases List.mem_append.mp hl with hmem | hlast
  · exact h l hmem
  · rw [List.mem_singleton.mp hlast]
    exact List.not_mem_nil

/-- **A listing has one line for each row**, and ends in a line break. -/
theorem splitOn_render (rows : List Row) :
    (Command.ListFormat.text.render showBytes order rows).toList.splitOn '\n' =
      (rows.map fun r =>
        (shownLine showBytes r.addr.toNat (order.bytes r.word) r.text).toList) ++ [[]] := by
  rw [← splitOn_lines]
  · congr 1
    simp only [Command.ListFormat.render, String.toList_join, List.flatMap_map, line_eq,
      String.toList_append]
    rfl
  · intro l hl
    obtain ⟨r, -, rfl⟩ := List.mem_map.mp hl
    exact r.newline_notMem_line

end Row

/-- **What a range is listed as.** The addresses are those from the word around the start on,
four apart, as numbers that do not wrap. The rows are those of all words in front of the first
address that is at the end or behind it, or beyond the address space, or where no word is
mapped; each with its address, its word and the text of the instruction there. A byte is
mapped where a segment covers its address. The listing has a line for each row, in this
order, and the bytes that are shown on a line are those of the image from its address on. -/
theorem listing_exact (img : Image) (start stop : Word) :
    let pc := fun k => start.toNat / 4 * 4 + 4 * k
    let goes := fun k => pc k < stop.toNat ∧ pc k < 2 ^ 32 ∧
      (img.readWord (UInt32.ofNat (pc k))).isSome
    let rows := img.rows start stop
    let lines := fun showBytes =>
      (Command.ListFormat.text.render showBytes img.order rows).toList.splitOn '\n'
    (∀ k < rows.length, goes k) ∧ ¬ goes rows.length ∧
      (∀ k r, rows[k]? = some r → r.addr.toNat = pc k ∧ img.readWord r.addr = some r.word ∧
        r.text = (Instr.ofWord r.word).textAt r.addr) ∧
      (∀ a, img.readByte a = none ↔ ∀ s ∈ img.segments, ¬ s.covers a) ∧
      ∀ showBytes, (lines showBytes).length = rows.length + 1 ∧
        (lines showBytes)[rows.length]? = some [] ∧
        ∀ k r, rows[k]? = some r → ∃ bs : List UInt8, bs.length = 4 ∧
          (∀ j < 4, img.readByte (UInt32.ofNat (pc k + j)) = bs[j]?) ∧
          (lines showBytes)[k]? = some (shownLine showBytes (pc k) bs r.text).toList := by
  intro pc goes rows lines
  have hstart : ∀ k, start.alignDown.toNat + 4 * k = pc k := by
    intro k
    rw [Word.toNat_alignDown]
    show _ = start.toNat / 4 * 4 + 4 * k
    omega
  have hstop := stop.toNat_lt
  have hrow : ∀ k r, rows[k]? = some r → pc k < stop.toNat ∧ r.addr = UInt32.ofNat (pc k) ∧
      img.readWord r.addr = some r.word := by
    intro k r hr
    have h := Image.getElem?_rowsFrom hr
    rwa [hstart] at h
  have haddr : ∀ k, pc k < stop.toNat → (UInt32.ofNat (pc k)).toNat = pc k := by
    intro k hlt
    rw [UInt32.toNat_ofNat']
    omega
  have hlines : ∀ showBytes, lines showBytes = (rows.map fun r =>
      (shownLine showBytes r.addr.toNat (img.order.bytes r.word) r.text).toList) ++ [[]] :=
    fun _ => Row.splitOn_render rows
  refine ⟨fun k hk => ?_, fun hgoes => ?_, fun k r hr => ?_, fun a => Image.readByte_eq_none_iff,
    fun showBytes => ⟨?_, ?_, fun k r hr => ?_⟩⟩
  · obtain ⟨hlt, ha, hword⟩ := hrow k rows[k] (List.getElem?_eq_getElem hk)
    refine ⟨hlt, by omega, ?_⟩
    rw [← ha, hword]
    rfl
  · obtain ⟨hlt, -, hsome⟩ := hgoes
    rcases img.rowsFrom_stops stop start.alignDown with hend | hnone
    · rw [hstart] at hend
      exact absurd hlt (Nat.not_lt.mpr hend)
    · rw [hstart] at hnone
      rw [show img.readWord (UInt32.ofNat (pc rows.length)) = none from hnone] at hsome
      cases hsome
  · obtain ⟨hlt, ha, hword⟩ := hrow k r hr
    exact ⟨ha ▸ haddr k hlt, hword, rfl⟩
  · rw [hlines, List.length_append, List.length_map]
    rfl
  · rw [hlines, List.getElem?_append_right (Nat.le_of_eq (by rw [List.length_map])),
      List.length_map, Nat.sub_self, List.getElem?_cons_zero]
  · obtain ⟨hlt, ha, hword⟩ := hrow k r hr
    have hk : k < rows.length := (List.getElem?_eq_some_iff.mp hr).1
    refine ⟨img.order.bytes r.word, img.order.length_bytes r.word, fun j hj => ?_, ?_⟩
    · rw [UInt32.ofNat_add, ← ha]
      exact Image.readByte_of_readWord hword j hj
    · rw [hlines, List.getElem?_append_left (by rwa [List.length_map]), List.getElem?_map, hr,
        Option.map_some, ha, haddr k hlt]

/-- A start inside a word, a word that lies in two segments, and a last one of which only the
first byte is mapped: two rows, and the listing has their lines. -/
theorem listing_exact_two_segments :
    let img : Image := ⟨[{ base := 0x1000, bytes := ⟨#[0, 0, 0]⟩ },
      { base := 0x1003, bytes := ⟨#[1, 0, 0, 0, 1, 9]⟩ }], .little⟩
    let rows := img.rows 0x1002 0x2000
    rows = [⟨0x1000, 0x1000000⟩, ⟨0x1004, 0x1000000⟩] ∧
      ((Command.ListFormat.text.render true .little rows).toList.splitOn '\n').length = 3 := by
  intro img rows
  obtain ⟨hgoes, hend, hrow, -, hlines⟩ := listing_exact img 0x1002 0x2000
  have hshown : ∀ k < 2, ∀ r, rows[k]? = some r →
      r = ⟨UInt32.ofNat (0x1000 + 4 * k), 0x1000000⟩ := by
    intro k hk r hr
    obtain ⟨haddr, hword, -⟩ := hrow k r hr
    have hmapped : ∀ k < 2, img.readWord (UInt32.ofNat (0x1000 + 4 * k)) = some 0x1000000 := by
      decide +kernel
    have haddr : r.addr = UInt32.ofNat (0x1000 + 4 * k) :=
      UInt32.ofNat_toNat.symm.trans (congrArg UInt32.ofNat haddr)
    rw [haddr, hmapped k hk] at hword
    rw [← haddr, Option.some.inj hword]
  have hlength : rows.length = 2 := by
    have hfirst : rows.length ≠ 0 := fun h => absurd (h ▸ hend) (by decide +kernel)
    have hsecond : rows.length ≠ 1 := fun h => absurd (h ▸ hend) (by decide +kernel)
    have hthird : ¬ 2 < rows.length := fun h => absurd (hgoes 2 h) (by decide +kernel)
    omega
  refine ⟨?_, (hlines true).1.trans (by rw [hlength])⟩
  obtain ⟨a, b, hrows⟩ := List.length_eq_two.mp hlength
  rw [hrows, hshown 0 (by decide) a (by rw [hrows]; rfl), hshown 1 (by decide) b (by rw [hrows]; rfl)]
  rfl

end SparcIU
