/-
# A memory over any history

Images are loaded into a memory, words are written and read, at any offsets and addresses and
in any order. The memory goes on as a plain row of bytes would: a request is granted exactly
if what it names lies in the row (`MemoryRequest.Fits`), an image or a word that is granted
replaces its own bytes and no others (`overwrite`), a word that is read is the one its four
bytes make up, and a refused request changes nothing. A mailbox does the same with its
memory, and its two books hold the words that were granted at its two addresses, wherever
these come to lie.

Key definitions: `overwrite`, `wordIn`, `MemoryRequest.Fits`, `MemoryRequest.effect`,
`Ram.after`, `Mailbox.after`, `wordsGranted`.
Key theorems: `ByteStore.toList_setAll`, `Ram.offset_eq_ok_iff`, `Ram.Shows.answer`,
`Mailbox.answer_receives`, `memory_history`.
-/
import Mathlib.Data.List.Induction
import SparcIU.Proofs.Report

namespace SparcIU

/-! ### Rows of bytes -/

/-- The row with the bytes from `o` on replaced. -/
def overwrite (bs : List UInt8) (o : Nat) (new : List UInt8) : List UInt8 :=
  bs.take o ++ new ++ bs.drop (o + new.length)

/-- The word that the four bytes from `o` on make up, if the row has all of them. -/
def wordIn (order : ByteOrder) (bs : List UInt8) (o : Nat) : Option Word :=
  match bs.drop o with
  | a :: b :: c :: d :: _ => some (order.word a b c d)
  | _ => none

theorem length_overwrite {bs new : List UInt8} {o : Nat} (h : o + new.length ≤ bs.length) :
    (overwrite bs o new).length = bs.length := by
  unfold overwrite
  rw [List.length_append, List.length_append, List.length_take, List.length_drop]
  omega

/-- What stands at an index of a row with some bytes replaced. -/
theorem getElem?_overwrite {bs new : List UInt8} {o : Nat} (h : o + new.length ≤ bs.length)
    (i : Nat) : (overwrite bs o new)[i]? =
      if o ≤ i ∧ i < o + new.length then new[i - o]? else bs[i]? := by
  have htake : (bs.take o).length = o := by
    rw [List.length_take]
    omega
  have hfront : (bs.take o ++ new).length = o + new.length := by rw [List.length_append, htake]
  unfold overwrite
  by_cases hbefore : i < o
  · rw [if_neg (by omega), List.getElem?_append_left (by omega),
      List.getElem?_append_left (by omega), List.getElem?_take_of_lt hbefore]
  · by_cases hin : i < o + new.length
    · rw [if_pos (by omega), List.getElem?_append_left (by omega),
        List.getElem?_append_right (by omega), htake]
    · rw [if_neg (by omega), List.getElem?_append_right (by omega), hfront, List.getElem?_drop]
      congr 1
      omega

namespace ByteStore

theorem toList_zeros (n : Nat) : (zeros n).toList = List.replicate n 0 := by
  refine List.ext_getElem ?_ fun i h _ => ?_
  · rw [length_toList, List.length_replicate]
    rfl
  · rw [List.getElem_replicate]
    simp only [toList, List.getElem_map, get_zeros]

theorem getElem?_toList (s : ByteStore) (i : Nat) :
    s.toList[i]? = if i < s.size then some (s.get i) else none := by
  unfold toList
  rw [List.getElem?_map]
  by_cases h : i < s.size
  · rw [if_pos h, List.getElem?_range h]
    rfl
  · rw [if_neg h, List.getElem?_eq_none (by rw [List.length_range]; omega)]
    rfl

/-- Bytes that are written replace those from their index on. -/
theorem toList_setAll (s : ByteStore) {o : Nat} {new : List UInt8} (h : o + new.length ≤ s.size) :
    (s.setAll o new).toList = overwrite s.toList o new := by
  have hlen := s.length_toList
  refine List.ext_getElem? fun i => ?_
  rw [getElem?_overwrite (by omega), getElem?_toList, getElem?_toList, Ram.size_setAll,
    Ram.get_setAll s new h]
  by_cases hin : o ≤ i ∧ i < o + new.length
  · rw [if_pos (by omega), if_pos hin, if_pos hin, List.getD_eq_getElem?_getD,
      List.getElem?_eq_getElem (by omega)]
    rfl
  · rw [if_neg hin, if_neg hin]

/-- Four bytes of a row are there to make up a word. -/
theorem wordIn_toList (s : ByteStore) (order : ByteOrder) {o : Nat} (h : o + 4 ≤ s.size) :
    wordIn order s.toList o =
      some (order.word (s.get o) (s.get (o + 1)) (s.get (o + 2)) (s.get (o + 3))) := by
  have hlen := s.length_toList
  have hget : ∀ i, (hi : i < s.toList.length) → s.toList[i] = s.get i := by
    intro i hi
    have hsome := s.getElem?_toList i
    rw [if_pos (by omega), List.getElem?_eq_getElem hi] at hsome
    exact Option.some.inj hsome
  unfold wordIn
  rw [List.drop_eq_getElem_cons (by omega), List.drop_eq_getElem_cons (by omega),
    List.drop_eq_getElem_cons (by omega), List.drop_eq_getElem_cons (by omega), hget, hget, hget,
    hget]

end ByteStore

/-! ### Requests -/

/-- What is asked of a memory. -/
inductive MemoryRequest where
  | load (offset : Nat) (image : ByteArray)
  | write (addr v : Word)
  | read (addr : Word)

/-- What comes back. -/
inductive MemoryReply where
  | refused
  | done
  | word (w : Word)
  deriving DecidableEq, Repr

namespace MemoryRequest

/-- What is asked for lies in a row of `size` bytes at `base`, a word at a multiple of four.
Offsets and addresses are numbers here and do not wrap. -/
def Fits (size : Nat) (base : Word) : MemoryRequest → Prop
  | load offset image => offset + image.size ≤ size
  | write addr _ | read addr =>
    addr.toNat % 4 = 0 ∧ base.toNat ≤ addr.toNat ∧ addr.toNat - base.toNat + 4 ≤ size

instance decidableFits (size : Nat) (base : Word) :
    (r : MemoryRequest) → Decidable (r.Fits size base)
  | load _ _ => inferInstanceAs (Decidable (_ ≤ _))
  | write _ _ | read _ => inferInstanceAs (Decidable (_ ∧ _ ∧ _))

/-- The row after a request that fits. -/
def effect (base : Word) (order : ByteOrder) (bs : List UInt8) : MemoryRequest → List UInt8
  | load offset image => overwrite bs offset image.data.toList
  | write addr v => overwrite bs (addr.toNat - base.toNat) (order.bytes v)
  | read _ => bs

/-- The reply to a request that fits. A word that is not there has none. -/
def reply (base : Word) (order : ByteOrder) (bs : List UInt8) : MemoryRequest → Option MemoryReply
  | load _ _ | write _ _ => some .done
  | read addr => (wordIn order bs (addr.toNat - base.toNat)).map .word

/-- The word that a request is granted at an address. -/
def granted (size : Nat) (base a : Word) : MemoryRequest → Option Word
  | load _ _ | read _ => none
  | write addr v => if (write addr v).Fits size base ∧ addr = a then some v else none

end MemoryRequest

/-- The row of bytes after a history. -/
def contents (size : Nat) (base : Word) (order : ByteOrder) (rs : List MemoryRequest) :
    List UInt8 :=
  rs.foldl (fun bs r => if r.Fits size base then r.effect base order bs else bs)
    (List.replicate size 0)

/-- The words of a history that were granted at an address, in order. -/
def wordsGranted (size : Nat) (base a : Word) (rs : List MemoryRequest) : List Word :=
  rs.filterMap (·.granted size base a)

/-! ### Memories -/

namespace Ram

/-- The reply of a memory to a request, and the memory afterwards. -/
def answer (m : Ram) : MemoryRequest → MemoryReply × Ram
  | .load offset image =>
    match m.loadImage offset image with
    | .error _ => (.refused, m)
    | .ok m' => (.done, m')
  | .write addr v =>
    match m.write addr v with
    | (.error _, m') => (.refused, m')
    | (.ok (), m') => (.done, m')
  | .read addr =>
    match m.read addr with
    | .error _ => (.refused, m)
    | .ok w => (.word w, m)

/-- The memory after a history. -/
def after (m : Ram) (rs : List MemoryRequest) : Ram := rs.foldl (fun m r => (m.answer r).2) m

/-- The memory is a row of bytes at a base. -/
structure Shows (m : Ram) (base : Word) (order : ByteOrder) (bs : List UInt8) : Prop where
  base : m.base = base
  order : m.order = order
  bytes : m.bytes.toList = bs

variable {m : Ram} {base addr : Word} {order : ByteOrder} {bs : List UInt8} {o : Nat}

/-- **Which addresses have an offset**, and which. -/
theorem offset_eq_ok_iff : m.offset addr = .ok o ↔
    addr.toNat % 4 = 0 ∧ m.base.toNat ≤ addr.toNat ∧ addr.toNat - m.base.toNat + 4 ≤ m.bytes.size ∧
      o = addr.toNat - m.base.toNat := by
  constructor
  · intro h
    obtain ⟨haligned, haddr, hfits⟩ := offset_ok h
    exact ⟨haligned, by omega, by omega, by omega⟩
  · rintro ⟨haligned, hbase, hfits, rfl⟩
    have hle : m.base ≤ addr := UInt32.le_iff_toNat_le.mpr hbase
    have hsub : (addr - m.base).toNat = addr.toNat - m.base.toNat := UInt32.toNat_sub_of_le _ _ hle
    rw [← hsub] at hfits ⊢
    exact offset_of_range (Word.isAligned_iff.mpr haligned) hle hfits

theorem Shows.length (h : m.Shows base order bs) : bs.length = m.bytes.size := by
  rw [← h.bytes, ByteStore.length_toList]

/-- A word fits exactly where there is an offset. -/
theorem Shows.offset (h : m.Shows base order bs) : m.offset addr =.ok (addr.toNat - base.toNat) ↔
    (MemoryRequest.read addr).Fits bs.length base := by
  rw [offset_eq_ok_iff, h.base, h.length]
  exact ⟨fun ⟨h₁, h₂, h₃, _⟩ => ⟨h₁, h₂, h₃⟩, fun ⟨h₁, h₂, h₃⟩ => ⟨h₁, h₂, h₃, rfl⟩⟩

theorem Shows.offset_error (h : m.Shows base order bs)
    (hfits : ¬ (MemoryRequest.read addr).Fits bs.length base) : ∃ e, m.offset addr = .error e := by
  cases ho : m.offset addr with
  | error e => exact ⟨e, rfl⟩
  | ok o =>
    obtain ⟨-, -, -, rfl⟩ := offset_eq_ok_iff.mp ho
    rw [h.base] at ho
    exact absurd (h.offset.mp ho) hfits

/-- Bytes that are written inside a memory are written into its row. -/
theorem Shows.setAll (h : m.Shows base order bs) {new : List UInt8}
    (hfits : o + new.length ≤ bs.length) :
    ({ m with bytes := m.bytes.setAll o new } : Ram).Shows base order (overwrite bs o new) := by
  refine ⟨h.base, h.order, ?_⟩
  rw [← h.bytes]
  exact m.bytes.toList_setAll (h.length ▸ hfits)

/-- **A request that fits is granted, and any other is refused and changes nothing.** -/
theorem Shows.answer (h : m.Shows base order bs) (hsize : bs.length < 2 ^ 64) (r : MemoryRequest) :
    if r.Fits bs.length base then
      some (m.answer r).1 = r.reply base order bs ∧
        (m.answer r).2.Shows base order (r.effect base order bs)
    else m.answer r = (.refused, m) := by
  have hlen := h.length
  cases r with
  | load offset image =>
    simp only [Ram.answer, Ram.loadImage]
    split
    · rename_i hfits
      have hle : offset + image.size ≤ bs.length := hfits
      rw [if_neg (by omega), if_neg (by omega)]
      exact ⟨rfl, h.setAll hle⟩
    · rename_i hfits
      have hlt : ¬ offset + image.size ≤ bs.length := hfits
      -- a sum that is no 64-bit number is beyond the end in any case
      by_cases hbig : 0x10000000000000000 ≤ offset + image.size
      · rw [if_pos hbig]
      · rw [if_neg hbig, if_pos (by omega)]
  | write addr v =>
    simp only [Ram.answer, Ram.write]
    split
    · rename_i hfits
      have hle : addr.toNat - base.toNat + (order.bytes v).length ≤ bs.length := by
        rw [ByteOrder.length_bytes]
        exact hfits.2.2
      obtain rfl := h.order
      rw [h.offset.mpr hfits]
      exact ⟨rfl, h.setAll hle⟩
    · rename_i hfits
      obtain ⟨e, he⟩ := h.offset_error hfits
      rw [he]
  | read addr =>
    simp only [Ram.answer, Ram.read]
    split
    · rename_i hfits
      have hword := m.bytes.wordIn_toList order (hlen ▸ hfits.2.2)
      obtain rfl := h.order
      rw [h.offset.mpr hfits, MemoryRequest.reply, ← h.bytes, hword]
      exact ⟨rfl, h.base, rfl, rfl⟩
    · rename_i hfits
      obtain ⟨e, he⟩ := h.offset_error hfits
      rw [he]

end Ram

/-! ### Mailboxes -/

namespace Mailbox

/-- The reply of a mailbox to a request, and the mailbox afterwards. An image is loaded past
the books. -/
def answer (m : Mailbox) : MemoryRequest → MemoryReply × Mailbox
  | .load offset image =>
    match m.ram.loadImage offset image with
    | .error _ => (.refused, m)
    | .ok ram => (.done, { m with ram })
  | .write addr v =>
    match m.write addr v with
    | (.error _, m') => (.refused, m')
    | (.ok (), m') => (.done, m')
  | .read addr =>
    match m.read addr with
    | .error _ => (.refused, m)
    | .ok w => (.word w, m)

/-- The mailbox after a history. -/
def after (m : Mailbox) (rs : List MemoryRequest) : Mailbox :=
  rs.foldl (fun m r => (m.answer r).2) m

variable {m : Mailbox} {base : Word} {order : ByteOrder} {bs : List UInt8}

/-- A mailbox replies as its memory does, and its memory goes on alone. -/
theorem answer_ram (m : Mailbox) (r : MemoryRequest) :
    (m.answer r).1 = (m.ram.answer r).1 ∧ (m.answer r).2.ram = (m.ram.answer r).2 := by
  cases r with
  | load offset image =>
    simp only [Mailbox.answer, Ram.answer]
    cases m.ram.loadImage offset image with
    | error e => exact ⟨rfl, rfl⟩
    | ok ram => exact ⟨rfl, rfl⟩
  | write addr v =>
    simp only [Mailbox.answer, Ram.answer, Ram.write]
    cases ho : m.ram.offset addr with
    | error e =>
      rw [write_refused ho]
      exact ⟨rfl, rfl⟩
    | ok o =>
      rw [write_granted ho]
      exact ⟨rfl, ram_receive ..⟩
  | read addr =>
    simp only [Mailbox.answer, Mailbox.read, Ram.answer]
    cases m.ram.read addr with
    | error e => exact ⟨rfl, rfl⟩
    | ok w => exact ⟨rfl, rfl⟩

/-- A refused request leaves the mailbox as it is. -/
theorem answer_refused {r : MemoryRequest} (h : (m.answer r).1 = .refused) :
    m.answer r = (.refused, m) := by
  cases r with
  | load offset image =>
    simp only [Mailbox.answer] at h ⊢
    cases hload : m.ram.loadImage offset image with
    | error e => rfl
    | ok ram =>
      rw [hload] at h
      cases h
  | write addr v =>
    simp only [Mailbox.answer] at h ⊢
    cases ho : m.ram.offset addr with
    | error e => rw [write_refused ho]
    | ok o =>
      rw [write_granted ho] at h
      cases h
  | read addr =>
    simp only [Mailbox.answer] at h ⊢
    cases hread : m.read addr with
    | error e => rfl
    | ok w =>
      rw [hread] at h
      cases h

/-- **What one request enters in the books**: the word it was granted at an address of theirs. -/
theorem answer_receives (h : m.ram.Shows base order bs) (r : MemoryRequest) :
    (m.answer r).2.outputs = m.outputs ++ (r.granted bs.length base m.outputAddr).toList ∧
      (m.answer r).2.status = (r.granted bs.length base m.statusAddr).or m.status := by
  cases r with
  | load offset image =>
    simp only [Mailbox.answer]
    cases m.ram.loadImage offset image with
    | error e | ok ram => exact ⟨(List.append_nil _).symm, rfl⟩
  | read addr =>
    simp only [Mailbox.answer]
    cases m.read addr with
    | error e | ok w => exact ⟨(List.append_nil _).symm, rfl⟩
  | write addr v =>
    simp only [Mailbox.answer, MemoryRequest.granted]
    by_cases hfits : (MemoryRequest.write addr v).Fits bs.length base
    · have hout : outputAddr { m with ram := { m.ram with
          bytes := m.ram.bytes.setAll (addr.toNat - base.toNat) (m.ram.order.bytes v) } } =
          m.outputAddr := outputAddr_congr rfl (Ram.size_setAll ..)
      rw [write_granted (h.offset.mpr hfits)]
      simp only [outputs_receive, status_receive, statusAddr, hout, hfits, true_and]
      refine ⟨?_, ?_⟩
      · split_ifs <;> rfl
      · split_ifs <;> rfl
    · obtain ⟨e, he⟩ := h.offset_error hfits
      rw [write_refused he, if_neg fun hand => hfits hand.1, if_neg fun hand => hfits hand.1]
      exact ⟨(List.append_nil _).symm, rfl⟩

end Mailbox

/-! ### Histories -/

variable {size : Nat} {base : Word} {order : ByteOrder} {rs : List MemoryRequest}
  {r : MemoryRequest}

theorem length_effect {bs : List UInt8} (hfits : r.Fits bs.length base) :
    (r.effect base order bs).length = bs.length := by
  cases r with
  | load offset image => exact length_overwrite hfits
  | write addr v =>
    refine length_overwrite ?_
    rw [ByteOrder.length_bytes]
    exact hfits.2.2
  | read addr => rfl

theorem contents_append : contents size base order (rs ++ [r]) =
    if r.Fits size base then r.effect base order (contents size base order rs)
    else contents size base order rs := by
  unfold contents
  rw [List.foldl_append]
  rfl

theorem wordsGranted_append {a : Word} : wordsGranted size base a (rs ++ [r]) =
    wordsGranted size base a rs ++ (r.granted size base a).toList := by
  unfold wordsGranted
  rw [List.filterMap_append]
  cases h : r.granted size base a with
  | none => rw [List.filterMap_cons_none h]; rfl
  | some w => rw [List.filterMap_cons_some h]; rfl

theorem Ram.after_append (m : Ram) : m.after (rs ++ [r]) = ((m.after rs).answer r).2 := by
  unfold after
  rw [List.foldl_append]
  rfl

theorem Mailbox.after_append (m : Mailbox) : m.after (rs ++ [r]) = ((m.after rs).answer r).2 := by
  unfold after
  rw [List.foldl_append]
  rfl

/-- **The memory is the row of bytes after any history.** -/
theorem Ram.shows_after (base : Word) (order : ByteOrder) (hsize : size < 2 ^ 64)
    (rs : List MemoryRequest) :
    ((zero size base order).after rs).Shows base order (contents size base order rs) ∧
      (contents size base order rs).length = size := by
  induction rs using List.reverseRecOn with
  | nil => exact ⟨⟨rfl, rfl, ByteStore.toList_zeros size⟩, List.length_replicate⟩
  | append_singleton rs r ih =>
    obtain ⟨h, hlen⟩ := ih
    have hanswer := h.answer (by rw [hlen]; exact hsize) r
    rw [hlen] at hanswer
    rw [after_append, contents_append]
    by_cases hfits : r.Fits size base
    · rw [if_pos hfits] at hanswer ⊢
      exact ⟨hanswer.2, (length_effect (by rw [hlen]; exact hfits)).trans hlen⟩
    · rw [if_neg hfits] at hanswer ⊢
      rw [hanswer]
      exact ⟨h, hlen⟩

namespace Mailbox

/-- The two addresses as numbers; they wrap around. -/
theorem toNat_addrs {m : Mailbox} {bs : List UInt8} (h : m.ram.Shows base order bs) :
    (m.outputAddr.toNat : Int) = (base.toNat + bs.length - 4) % 2 ^ 32 ∧
      (m.statusAddr.toNat : Int) = (base.toNat + bs.length - 8) % 2 ^ 32 := by
  have hfour : (4 : UInt32).toNat = 4 := rfl
  have hout : m.outputAddr.toNat =
      (2 ^ 32 - 4 + (base.toNat + bs.length % 2 ^ 32) % 2 ^ 32) % 2 ^ 32 := by
    unfold outputAddr
    rw [h.base, ← h.length, UInt32.toNat_sub, UInt32.toNat_add, UInt32.toNat_ofNat', hfour]
  have hst : m.statusAddr.toNat = (2 ^ 32 - 4 + m.outputAddr.toNat) % 2 ^ 32 := by
    unfold statusAddr
    rw [UInt32.toNat_sub, hfour]
  omega

/-- **The books after any history.** The outputs are the words granted at the last address of
the memory, and the status is the last one granted below it. -/
theorem books_after (base : Word) (order : ByteOrder) (hsize : size < 2 ^ 64)
    (rs : List MemoryRequest) :
    let m := ({ ram := .zero size base order } : Mailbox).after rs
    m.ram = (Ram.zero size base order).after rs ∧
      m.outputs = wordsGranted size base m.outputAddr rs ∧
      m.status = (wordsGranted size base m.statusAddr rs).getLast? := by
  induction rs using List.reverseRecOn with
  | nil => exact ⟨rfl, rfl, rfl⟩
  | append_singleton rs r ih =>
    obtain ⟨hram, houtputs, hstatus⟩ := ih
    obtain ⟨h, hlen⟩ := Ram.shows_after base order hsize rs
    obtain ⟨h', hlen'⟩ := Ram.shows_after base order hsize (rs ++ [r])
    set m := ({ ram := .zero size base order } : Mailbox).after rs with hm
    intro m'
    have hm' : m' = (m.answer r).2 := after_append ..
    have hram' : m'.ram = (Ram.zero size base order).after (rs ++ [r]) := by
      rw [hm', (m.answer_ram r).2, hram, Ram.after_append]
    obtain ⟨houtputs', hstatus'⟩ := answer_receives (hram ▸ h) r
    have hout : m'.outputAddr = m.outputAddr := by
      refine outputAddr_congr ?_ ?_
      · rw [hram', h'.base, hram, h.base]
      · rw [hram', ← h'.length, hlen', hram, ← h.length, hlen]
    have hst : m'.statusAddr = m.statusAddr := congrArg (· - 4) hout
    rw [hlen] at houtputs' hstatus'
    refine ⟨hram', ?_, ?_⟩
    · rw [hout, hm', houtputs', houtputs, wordsGranted_append]
    · rw [hst, hm', hstatus', hstatus, wordsGranted_append, List.getLast?_append]
      cases r.granted size base m.statusAddr <;> rfl

end Mailbox

/-- **A memory and a mailbox over any history.** The size of a memory is a number of 64 bits, and
its bytes are zero at first. After any row of requests it holds the bytes of the row, as many
as it began with. The next request is granted exactly if it fits, then with the word its
bytes make up if it reads; else nothing changes. No offset is handed out that has not all four
of its bytes in the memory. A mailbox in the place of the memory has the same memory and the
same replies, its outputs are the words granted at its last address, in order, and its status
is the last one granted below that, if there is any; both addresses are taken modulo 2^32. -/
theorem memory_history {size : Nat} (hsize : size < 2 ^ 64) (base : Word) (order : ByteOrder)
    (rs : List MemoryRequest) :
    let m := (Ram.zero size base order).after rs
    let h := ({ ram := .zero size base order } : Mailbox).after rs
    let bs := contents size base order rs
    (m.bytes.toList = bs ∧ bs.length = size) ∧
      (∀ r : MemoryRequest, if r.Fits size base then some (m.answer r).1 = r.reply base order bs
        else m.answer r = (.refused, m)) ∧
      (∀ addr o, m.offset addr = .ok o → o + 4 ≤ size) ∧
      h.ram = m ∧
      (∀ r : MemoryRequest, (h.answer r).1 = (m.answer r).1 ∧
        (¬ r.Fits size base → h.answer r = (.refused, h))) ∧
      ((h.outputAddr.toNat : Int) = (base.toNat + size - 4) % 2 ^ 32 ∧
        (h.statusAddr.toNat : Int) = (base.toNat + size - 8) % 2 ^ 32) ∧
      h.outputs = wordsGranted size base h.outputAddr rs ∧
      h.status = (wordsGranted size base h.statusAddr rs).getLast? := by
  intro m h bs
  obtain ⟨hshows, hlen⟩ := Ram.shows_after base order hsize rs
  obtain ⟨hram, houtputs, hstatus⟩ := Mailbox.books_after base order hsize rs
  have hnext : ∀ r : MemoryRequest, if r.Fits size base then
      some (m.answer r).1 = r.reply base order bs ∧
        (m.answer r).2.Shows base order (r.effect base order bs)
      else m.answer r = (.refused, m) := by
    intro r
    have hanswer := hshows.answer (by rw [hlen]; exact hsize) r
    rwa [hlen] at hanswer
  have haddrs := Mailbox.toNat_addrs (m := h) (hram ▸ hshows)
  rw [hlen] at haddrs
  refine ⟨⟨hshows.bytes, hlen⟩, fun r => ?_, fun addr o ho => ?_, hram, fun r => ?_, haddrs,
    houtputs, hstatus⟩
  · have hr := hnext r
    split at hr
    · rename_i hfits
      rw [if_pos hfits]
      exact hr.1
    · rename_i hfits
      rw [if_neg hfits]
      exact hr
  · obtain ⟨-, -, hfits⟩ := Ram.offset_ok ho
    rwa [← hshows.length, hlen] at hfits
  · have hreply : (h.answer r).1 = (m.answer r).1 := by rw [(h.answer_ram r).1, hram]
    refine ⟨hreply, fun hfits => Mailbox.answer_refused ?_⟩
    have hr := hnext r
    rw [if_neg hfits] at hr
    rw [hreply, hr]

/-- Twelve bytes around the last address: the word below the mailbox's last one is the last
word of the address space, and the last one would be that at 0, which is not in the memory. -/
theorem memory_history_top :
    let rs : List MemoryRequest := [.load 1 ⟨#[9]⟩, .write 0xfffffffc 5, .write 0 7]
    let h := ({ ram := .zero 12 0xfffffff8 .little } : Mailbox).after rs
    12 < 2 ^ 64 ∧ h.outputAddr = 0 ∧ h.statusAddr = 0xfffffffc ∧
      h.ram.bytes.toList = [0, 9, 0, 0, 5, 0, 0, 0, 0, 0, 0, 0] ∧ h.outputs = [] ∧
      h.status = some 5 ∧ (h.answer (.read 0xfffffff8)).1 = .word 0x900 ∧ h.answer (.write 0 7) = (.refused, h) := by
  intro rs h
  obtain ⟨⟨hbytes, -⟩, hreply, -, hram, hanswer, ⟨hout, hst⟩, houtputs, hstatus⟩ :=
    memory_history (show 12 < 2 ^ 64 by decide) 0xfffffff8 .little rs
  have hout : h.outputAddr = 0 := UInt32.toNat_inj.mp (Int.ofNat_inj.mp hout)
  have hst : h.statusAddr = 0xfffffffc := UInt32.toNat_inj.mp (Int.ofNat_inj.mp hst)
  refine ⟨by decide, hout, hst, ?_, ?_, ?_, ?_, (hanswer _).2 (by decide)⟩
  · rw [hram, hbytes]
    decide
  · rw [houtputs, hout]
    decide
  · rw [hstatus, hst]
    decide
  · have hread := hreply (.read 0xfffffff8)
    rw [if_pos (by decide)] at hread
    rw [(hanswer _).1]
    exact Option.some.inj (hread.trans (by decide))

end SparcIU
