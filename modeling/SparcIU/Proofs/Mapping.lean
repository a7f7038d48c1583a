/-
# Where the bytes of a file are mapped

A part of a file is to be found from a base address on: a byte at each address of the
part, a word where all four of its bytes are, and nothing elsewhere (`Image.Maps`).
Addresses are compared with the end of the segment, and that is an address too. So the
law holds of a part that fits exactly if it ends below 2^32; a part that takes up the last
address has its end at 0 and is not mapped at all (`ofFile_maps_iff`). Wherever a segment
ends, it covers no address without a byte (`Segment.lt_size_of_covers`).

Key definitions: `payload`, `mappedByte`, `mappedWord`, `Image.Maps`.
Key theorems: `Segment.covers_iff`, `Segment.not_covers_of_top`,
`Segment.lt_size_of_covers`, `ofFile_maps_iff`.
-/
import SparcIU.Image
import SparcIU.Proofs.Words

namespace SparcIU

/-! ### What is to be mapped -/

/-- The bytes of a file after the first `skip` ones, up to `length` of them if that is
given. -/
def payload (file : ByteArray) (skip : Nat) (length : Option Nat) : List UInt8 :=
  let rest := file.data.toList.drop skip
  match length with
  | none => rest
  | some n => rest.take n

/-- The byte at an address if a row of bytes begins at `base`. Addresses are numbers here
and do not wrap. -/
def mappedByte (base : Nat) (bs : List UInt8) (a : Nat) : Option UInt8 :=
  if base ≤ a ∧ a < base + bs.length then bs[a - base]? else none

/-- The word at an address, if all four of its bytes are there. -/
def mappedWord (order : ByteOrder) (base : Nat) (bs : List UInt8) (a : Nat) : Option Word :=
  match mappedByte base bs a, mappedByte base bs (a + 1), mappedByte base bs (a + 2),
    mappedByte base bs (a + 3) with
  | some b₀, some b₁, some b₂, some b₃ => some (order.word b₀ b₁ b₂ b₃)
  | _, _, _, _ => none

/-- A row of bytes is mapped at `base`, and nothing else is. -/
structure Image.Maps (img : Image) (base : Nat) (bs : List UInt8) : Prop where
  byte : ∀ a, img.readByte a = mappedByte base bs a.toNat
  word : ∀ a, a.toNat ≤ 2 ^ 32 - 4 → img.readWord a = mappedWord img.order base bs a.toNat

theorem isSome_mappedByte {base a : Nat} {bs : List UInt8} (h : base ≤ a ∧ a < base + bs.length) :
    (mappedByte base bs a).isSome := by
  rw [mappedByte, if_pos h, isSome_getElem?]
  omega

/-! ### Segments -/

namespace Segment

variable {s : Segment} {a : Word}

theorem toNat_stop (s : Segment) : s.stop.toNat = (s.base.toNat + s.bytes.size) % 2 ^ 32 := by
  unfold stop
  rw [UInt32.toNat_add, UInt32.toNat_ofNat', Nat.add_mod_mod]

theorem covers_eq (s : Segment) (a : Word) : s.covers a ↔
    s.base.toNat ≤ a.toNat ∧ a.toNat < (s.base.toNat + s.bytes.size) % 2 ^ 32 := by
  unfold covers
  rw [Bool.and_eq_true, decide_eq_true_iff, decide_eq_true_iff, UInt32.le_iff_toNat_le,
    UInt32.lt_iff_toNat_lt, toNat_stop]

/-- A segment that ends below the last address covers its bytes. -/
theorem covers_iff (h : s.base.toNat + s.bytes.size < 2 ^ 32) :
    s.covers a ↔ s.base.toNat ≤ a.toNat ∧ a.toNat < s.base.toNat + s.bytes.size := by
  rw [covers_eq, Nat.mod_eq_of_lt h]

/-- A segment with a byte at the last address ends at 0 and covers nothing. -/
theorem not_covers_of_top (h : s.base.toNat + s.bytes.size = 2 ^ 32) : ¬ s.covers a := by
  rw [covers_eq, h, Nat.mod_self]
  exact fun hc => Nat.not_lt_zero _ hc.2

/-- The offset of an address that is covered. -/
theorem toNat_offset (h : s.base.toNat ≤ a.toNat) :
    (a - s.base).toNat = a.toNat - s.base.toNat :=
  UInt32.toNat_sub_of_le _ _ (UInt32.le_iff_toNat_le.mpr h)

/-- **There is a byte at every address that is covered**, wherever the segment ends. -/
theorem lt_size_of_covers (h : s.covers a) : (a - s.base).toNat < s.bytes.size := by
  have hbase := s.base.toNat_lt
  have ha := a.toNat_lt
  obtain ⟨hle, hlt⟩ := (s.covers_eq a).mp h
  rw [toNat_offset hle]
  -- an end that wraps around lies below the base, unless there are 2^32 bytes at least
  by_cases hfits : s.base.toNat + s.bytes.size < 2 ^ 32
  · rw [Nat.mod_eq_of_lt hfits] at hlt
    omega
  · have hmod := Nat.mod_add_div (s.base.toNat + s.bytes.size) (2 ^ 32)
    omega

end Segment

/-! ### Images of one segment -/

namespace Image

variable {s : Segment} {order : ByteOrder}

theorem getElem?_bytes (bytes : ByteArray) (i : Nat) : bytes[i]? = bytes.data.toList[i]? := by
  rw [Array.getElem?_toList]
  by_cases h : i < bytes.size
  · rw [getElem?_pos bytes i h]
    exact (Array.getElem?_eq_getElem h).symm
  · rw [getElem?_neg bytes i h]
    exact (Array.getElem?_eq_none (Nat.not_lt.mp h)).symm

theorem readByte_singleton (s : Segment) (order : ByteOrder) (a : Word) :
    (⟨[s], order⟩ : Image).readByte a = if s.covers a then s.readByte a else none := by
  unfold readByte
  cases h : s.covers a <;> simp [h]

/-- A segment that covers its bytes is mapped. -/
theorem maps_singleton (h : s.base.toNat + s.bytes.size < 2 ^ 32) :
    (⟨[s], order⟩ : Image).Maps s.base.toNat s.bytes.data.toList := by
  have hbyte : ∀ a, (⟨[s], order⟩ : Image).readByte a =
      mappedByte s.base.toNat s.bytes.data.toList a.toNat := by
    intro a
    have hcovers := Segment.covers_iff h (a := a)
    have hlen : s.bytes.data.toList.length = s.bytes.size := rfl
    rw [readByte_singleton, mappedByte, hlen]
    by_cases hin : s.base.toNat ≤ a.toNat ∧ a.toNat < s.base.toNat + s.bytes.size
    · rw [if_pos (hcovers.mpr hin), if_pos hin, Segment.readByte, getElem?_bytes,
        Segment.toNat_offset hin.1]
    · rw [if_neg (mt hcovers.mp hin), if_neg hin]
  refine ⟨hbyte, fun a ha => ?_⟩
  -- the four addresses do not wrap around
  have hnext : ∀ k < 4, (a + UInt32.ofNat k).toNat = a.toNat + k := by
    intro k hk
    rw [UInt32.toNat_add, UInt32.toNat_ofNat']
    omega
  have h1 : (a + 1).toNat = a.toNat + 1 := hnext 1 (by decide)
  have h2 : (a + 2).toNat = a.toNat + 2 := hnext 2 (by decide)
  have h3 : (a + 3).toNat = a.toNat + 3 := hnext 3 (by decide)
  unfold readWord
  rw [hbyte, hbyte, hbyte, hbyte, h1, h2, h3]
  rfl

/-- Nothing is read of a segment with a byte at the last address. -/
theorem read_of_top (h : s.base.toNat + s.bytes.size = 2 ^ 32) (a : Word) :
    (⟨[s], order⟩ : Image).readByte a = none ∧ (⟨[s], order⟩ : Image).readWord a = none := by
  have hbyte : ∀ a, (⟨[s], order⟩ : Image).readByte a = none := by
    intro a
    rw [readByte_singleton, if_neg (Segment.not_covers_of_top h)]
  refine ⟨hbyte a, ?_⟩
  unfold readWord
  rw [hbyte]

/-- The image of a file is one segment with the payload. -/
theorem ofFile_ok {file : ByteArray} {base : Word} {skip : Nat} {length : Option Nat} {img : Image}
    (h : ofFile file base skip length order = .ok img) :
    ∃ bytes : ByteArray, img = ⟨[{ base, bytes }], order⟩ ∧
      bytes.data.toList = payload file skip length := by
  have hrest : (file.extract skip file.size).data.toList = file.data.toList.drop skip := by
    rw [ByteArray.data_extract, Array.toList_extract, List.extract_eq_take_drop]
    refine List.take_of_length_le ?_
    rw [List.length_drop]
    exact Nat.le_refl _
  unfold ofFile at h
  split at h
  · cases h
  · cases length with
    | none =>
      cases h
      exact ⟨_, rfl, hrest⟩
    | some n =>
      simp only at h
      split at h
      · cases h
      · cases h
        refine ⟨_, rfl, ?_⟩
        rw [ByteArray.data_extract, Array.toList_extract, List.extract_eq_take_drop, hrest,
          List.drop_zero]
        rfl

end Image

/-! ### Files -/

/-- **Which parts of a file are mapped.** A part of a file that fits into the address space
is mapped at its base, byte by byte and word by word, exactly if it does not take up the
last address. If it does, no byte and no word is read at any address. No read goes beyond
the part. -/
theorem ofFile_maps_iff {file : ByteArray} {base : Word} {skip : Nat} {length : Option Nat}
    {order : ByteOrder} {img : Image} (h : Image.ofFile file base skip length order = .ok img)
    (hfits : base.toNat + (payload file skip length).length ≤ 2 ^ 32) :
    (img.Maps base.toNat (payload file skip length) ↔
      base.toNat + (payload file skip length).length ≠ 2 ^ 32) ∧
    (base.toNat + (payload file skip length).length = 2 ^ 32 →
      ∀ a, img.readByte a = none ∧ img.readWord a = none) ∧
    ∀ s ∈ img.segments, ∀ a, s.covers a → (a - s.base).toNat < (payload file skip length).length := by
  obtain ⟨bytes, rfl, hbytes⟩ := Image.ofFile_ok h
  have hlen : (payload file skip length).length = bytes.size := congrArg List.length hbytes.symm
  rw [hlen] at hfits ⊢
  have htop : base.toNat + bytes.size = 2 ^ 32 →
      ∀ a, (⟨[{ base, bytes }], order⟩ : Image).readByte a = none ∧
        (⟨[{ base, bytes }], order⟩ : Image).readWord a = none :=
    fun heq => Image.read_of_top heq
  refine ⟨⟨fun hmaps heq => ?_, fun hne => ?_⟩, htop, ?_⟩
  · -- the byte at the base is there and is not read
    have hbase := base.toNat_lt
    have hfirst : (mappedByte base.toNat (payload file skip length) base.toNat).isSome :=
      isSome_mappedByte ⟨Nat.le_refl _, by omega⟩
    rw [← hmaps.byte, (htop heq base).1] at hfirst
    cases hfirst
  · rw [← hbytes]
    exact Image.maps_singleton (Nat.lt_of_le_of_ne hfits hne)
  · intro s hs a hcovers
    cases List.mem_singleton.mp hs
    exact Segment.lt_size_of_covers hcovers

/-- A file of six bytes. -/
def sixBytes : ByteArray := ⟨#[0, 1, 2, 3, 4, 5]⟩

/-- The second to the fifth byte of a file, mapped in the middle of the address space. -/
theorem ofFile_maps_iff_part : ∃ img,
    Image.ofFile sixBytes 0x40000000 1 (some 4) .big = .ok img ∧
      payload sixBytes 1 (some 4) = [1, 2, 3, 4] ∧
      img.Maps 0x40000000 (payload sixBytes 1 (some 4)) := by
  have h := ofFile_maps_iff (show Image.ofFile sixBytes 0x40000000 1 (some 4) .big = .ok _ from rfl)
    (show 0x40000000 + 4 ≤ 2 ^ 32 by decide)
  exact ⟨_, rfl, rfl, h.1.mpr (show 0x40000000 + 4 ≠ 2 ^ 32 by decide)⟩

/-- A file of one word. -/
def oneWord : ByteArray := ⟨#[1, 0, 0, 0]⟩

/-- A file of one word fits at the last four addresses, and nothing is read of it. -/
theorem ofFile_last_word_unmapped : ∃ img,
    Image.ofFile oneWord 0xfffffffc 0 none .big = .ok img ∧
      0xfffffffc + (payload oneWord 0 none).length ≤ 2 ^ 32 ∧
      mappedByte 0xfffffffc (payload oneWord 0 none) 0xfffffffc = some 1 ∧
      img.readByte 0xfffffffc = none ∧
      mappedWord .big 0xfffffffc (payload oneWord 0 none) 0xfffffffc = some 0x01000000 ∧
      img.readWord 0xfffffffc = none ∧ ¬ img.Maps 0xfffffffc (payload oneWord 0 none) := by
  refine ⟨_, rfl, by decide, rfl, rfl, rfl, rfl, fun h => ?_⟩
  have hbyte := h.byte 0xfffffffc
  cases hbyte

end SparcIU
