/-
# Rows of bytes

A row of bytes of fixed length, all zero at first. It is kept in pages, and a
page takes room only when one of its bytes is written, so a long row that is
hardly used stays small. Through `get` and `set` it is an ordinary array.

Key definitions: `ByteStore`, `ByteStore.zeros`, `ByteStore.get`,
`ByteStore.set`.
Key theorems: `ByteStore.get_zeros`, `ByteStore.get_set`.
-/

namespace SparcIU

/-- `2^k` zero bytes. -/
def zeroBlock : Nat → ByteArray
  | 0 => ByteArray.empty.push 0
  | k + 1 => zeroBlock k ++ zeroBlock k

/-- A page holds its first bytes; those after them are zero. -/
structure ByteStore where
  size : Nat
  pages : Array ByteArray
  size_le : size ≤ 0x10000 * pages.size

namespace ByteStore

/-- `n` zero bytes. -/
def zeros (n : Nat) : ByteStore where
  size := n
  pages := Array.replicate (n / 0x10000 + 1) ByteArray.empty
  size_le := by rw [Array.size_replicate]; omega

/-- Byte `j` of a page. -/
def pageGet (page : ByteArray) (j : Nat) : UInt8 := if h : j < page.size then page[j] else 0

/-- A whole page of zero bytes. -/
def blank : ByteArray := zeroBlock 16

/-- The page with byte `j` replaced; it is filled up first if it ends before. -/
def pageSet (page : ByteArray) (j : Nat) (b : UInt8) : ByteArray :=
  if j < page.size then page.set! j b
  else (page ++ blank.extract 0 (0x10000 - page.size)).set! j b

/-- The byte at an index. -/
def get (s : ByteStore) (i : Nat) : UInt8 :=
  if h : i / 0x10000 < s.pages.size then pageGet s.pages[i / 0x10000] (i % 0x10000) else 0

/-- The row with the byte at an index replaced. -/
def set (s : ByteStore) (i : Nat) (b : UInt8) : ByteStore where
  size := s.size
  pages := s.pages.modify (i / 0x10000) fun page => pageSet page (i % 0x10000) b
  size_le := by rw [Array.size_modify]; exact s.size_le

/-- The row with the bytes of a list from an index on. -/
def setAll (s : ByteStore) (i : Nat) : List UInt8 → ByteStore
  | [] => s
  | b :: bs => setAll (s.set i b) (i + 1) bs

/-- The bytes in order. -/
def toList (s : ByteStore) : List UInt8 := (List.range s.size).map s.get

/-! ### Reading what was written -/

@[simp] theorem size_set (s : ByteStore) (i : Nat) (b : UInt8) : (s.set i b).size = s.size := rfl

theorem get_zeros (n i : Nat) : (zeros n).get i = 0 := by
  unfold get
  split
  · simp [zeros, pageGet]
  · rfl

theorem size_zeroBlock_succ (k : Nat) :
    (zeroBlock (k + 1)).size = (zeroBlock k).size + (zeroBlock k).size := by
  rw [zeroBlock, ByteArray.size_append]

theorem size_blank : blank.size = 0x10000 := by
  have h : (zeroBlock 0).size = 1 := rfl
  simp only [blank, size_zeroBlock_succ, h]

theorem getElem_zeroBlock : ∀ (k i : Nat) (h : i < (zeroBlock k).size), (zeroBlock k)[i] = 0
  | 0, 0, _ => rfl
  | 0, i + 1, h => by simp [zeroBlock, ByteArray.size_push] at h
  | k + 1, i, h => by
    simp only [zeroBlock]
    by_cases hi : i < (zeroBlock k).size
    · rw [ByteArray.getElem_append_left hi]
      exact getElem_zeroBlock k i hi
    · rw [ByteArray.getElem_append_right (by omega)]
      exact getElem_zeroBlock k _ _

theorem pageGet_set! (page : ByteArray) (i j : Nat) (b : UInt8) (h : i < page.size) :
    pageGet (page.set! i b) j = if j = i then b else pageGet page j := by
  unfold pageGet
  by_cases hj : j < page.size
  · have hj' : j < (page.set! i b).size := by simpa using hj
    rw [dif_pos hj', dif_pos hj]
    by_cases e : j = i
    · subst e
      rw [if_pos rfl]
      exact ByteArray.getElem_set!_self page j b h
    · rw [if_neg e]
      exact ByteArray.getElem_set!_ne page i j b (Ne.symm e) _
  · have hj' : ¬ j < (page.set! i b).size := by simpa using hj
    rw [dif_neg hj', dif_neg hj, if_neg (by omega)]

/-- Filling up a page changes none of its bytes. -/
theorem pageGet_append_blank (page : ByteArray) (n j : Nat) :
    pageGet (page ++ blank.extract 0 n) j = pageGet page j := by
  unfold pageGet
  by_cases hj : j < page.size
  · rw [dif_pos hj, dif_pos (by rw [ByteArray.size_append]; omega),
      ByteArray.getElem_append_left hj]
  · rw [dif_neg hj]
    split
    · rw [ByteArray.getElem_append_right (by omega), ByteArray.getElem_extract]
      exact getElem_zeroBlock 16 _ _
    · rfl

/-- A page holds at each index what was written there last. -/
theorem pageGet_pageSet (page : ByteArray) (i j : Nat) (b : UInt8) (h : i < 0x10000) :
    pageGet (pageSet page i b) j = if j = i then b else pageGet page j := by
  unfold pageSet
  split
  · rw [pageGet_set! _ _ _ _ (by assumption)]
  · rw [pageGet_set!, pageGet_append_blank]
    rw [ByteArray.size_append, ByteArray.size_extract, size_blank]
    omega

/-- A row holds at each index what was written there last. -/
theorem get_set (s : ByteStore) (i j : Nat) (b : UInt8) (h : i < s.size) :
    (s.set i b).get j = if j = i then b else s.get j := by
  have hs := s.size_le
  unfold get
  simp only [set, Array.size_modify, Array.getElem_modify]
  by_cases hj : j / 0x10000 < s.pages.size
  · rw [dif_pos hj, dif_pos hj]
    by_cases e : i / 0x10000 = j / 0x10000
    · rw [if_pos e, pageGet_pageSet _ _ _ _ (by omega)]
      by_cases e' : j = i
      · rw [if_pos e', if_pos (by omega)]
      · rw [if_neg e', if_neg (by omega)]
    · rw [if_neg e, if_neg (by rintro rfl; exact e rfl)]
  · rw [dif_neg hj, dif_neg hj, if_neg (by omega)]

end ByteStore
end SparcIU
