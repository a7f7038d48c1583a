/-
# Files in the other byte order

Swap the bytes of every word of an image and of a record (`swapWords`), and read both in
the other byte order: the words are the same, so the processor starts in the same state
with the same words in its memory, and from there on only words are passed between the
two. So the runs agree round by round, and their memories are each other's with swapped
words when they end (`run_swapped`).

The argument needs two devices that answer alike as long as their states are related
(`SameAnswers`); then dialogues, rounds and runs end alike and leave related states. For
two memories the relation is that they hold the same words (`Ram.Swapped`), which a row
of bytes keeps that stands for the same words in both orders (`Ram.Swapped.setAll`): a
word that is written is such a row, and so is a file.

Key definitions: `SameAnswers`, `SameRun`, `swapWords`, `Ram.Swapped`, `Mailbox.Swapped`.
Key theorems: `SameAnswers.hold`, `SameAnswers.runFrom`, `Cpu.wordsOf_swapWords`,
`Ram.Swapped.setAll`, `Ram.Swapped.bytes`, `Cpu.loadRecord_swapped`, `run_swapped`.
-/
import SparcIU.Mailbox
import SparcIU.Proofs.Budgets
import SparcIU.Proofs.Restore
import SparcIU.Proofs.WorkingMemory

namespace SparcIU

/-! ### Devices that answer alike -/

/-- Two buses that give the same answers as long as `R` relates the states of their
devices, and keep it. -/
structure SameAnswers {σ τ : Type} (bus : Bus σ) (bus' : Bus τ) (R : σ → τ → Prop) : Prop where
  read : ∀ {s s'} (addr : Word), R s s' → (bus'.read addr s').1 = (bus.read addr s).1 ∧
    R (bus.read addr s).2 (bus'.read addr s').2
  write : ∀ {s s'} (addr v : Word), R s s' → (bus'.write addr v s').1 = (bus.write addr v s).1 ∧
    R (bus.write addr v s).2 (bus'.write addr v s').2
  hear : ∀ {s s'} (r : Remark), R s s' → R (bus.hear r s) (bus'.hear r s')

/-- Two runs of one processor with devices whose states `R` relates in the end. -/
structure SameRun {σ τ : Type} (R : σ → τ → Prop) (r : RunResult σ) (r' : RunResult τ) : Prop where
  exit : r'.exit = r.exit
  steps : r'.steps = r.steps
  asked : r'.asked = r.asked
  cpu : r'.cpu = r.cpu
  device : R r.device r'.device

namespace SameAnswers

variable {σ τ α : Type} {bus : Bus σ} {bus' : Bus τ} {R : σ → τ → Prop} {s : σ} {s' : τ}

/-- A dialogue hears the same and so says the same. -/
theorem hold (h : SameAnswers bus bus' R) (hR : R s s') (d : Dialogue α) :
    (d.hold bus' s').1 = (d.hold bus s).1 ∧ R (d.hold bus s).2 (d.hold bus' s').2 := by
  induction d generalizing s s' with
  | done a => exact ⟨rfl, hR⟩
  | read addr next ih =>
    obtain ⟨hanswer, hafter⟩ := h.read addr hR
    simp only [Dialogue.hold, hanswer]
    exact ih _ hafter
  | write addr v next ih =>
    obtain ⟨hanswer, hafter⟩ := h.write addr v hR
    simp only [Dialogue.hold, hanswer]
    exact ih _ hafter
  | remark r rest ih => exact ih (h.hear r hR)

theorem round (h : SameAnswers bus bus' R) (hR : R s s') (steps : Nat) (c : Cpu) :
    (c.round bus' steps s').1 = (c.round bus steps s).1 ∧
      (c.round bus' steps s').2.1 = (c.round bus steps s).2.1 ∧
      R (c.round bus steps s).2.2 (c.round bus' steps s').2.2 := by
  obtain ⟨hend, hafter⟩ := h.hold hR c.step
  unfold Cpu.round
  rcases hstep : c.step.hold bus s with ⟨⟨result, c₁⟩, s₁⟩
  rcases hstep' : c.step.hold bus' s' with ⟨x, s₁'⟩
  rw [hstep, hstep'] at hend hafter
  cases hend
  cases result with
  | completed | unimplemented word => exact ⟨rfl, rfl, hafter⟩
  | trapped t =>
    obtain ⟨hend, hafter⟩ := h.hold hafter c₁.deliver
    simp only
    rcases hdeliver : c₁.deliver.hold bus s₁ with ⟨⟨refused, c₂⟩, s₂⟩
    rcases hdeliver' : c₁.deliver.hold bus' s₁' with ⟨x, s₂'⟩
    rw [hdeliver, hdeliver'] at hend hafter
    cases hend
    cases refused with
    | some refused => exact ⟨rfl, rfl, hafter⟩
    | none => exact ⟨rfl, rfl, h.hear _ hafter⟩

/-- **Devices that answer alike are alike to a run** that does not tell them apart when it
asks whether to stop. -/
theorem runFrom (h : SameAnswers bus bus' R) {stop : Nat → σ → Bool} {stop' : Nat → τ → Bool}
    (hstop : ∀ n {s s'}, R s s' → stop' n s' = stop n s) (budget steps asked : Nat) (c : Cpu)
    (hR : R s s') :
    SameRun R (c.runFrom bus stop budget steps asked s)
      (c.runFrom bus' stop' budget steps asked s') := by
  refine Cpu.runFrom_rounds (P := fun budget steps asked c s r => ∀ s', R s s' →
    SameRun R r (c.runFrom bus' stop' budget steps asked s')) ?_ ?_ ?_ ?_
    budget steps asked c s s' hR
  · intro budget steps asked c s hstopped s' hR
    rw [Cpu.runFrom_stopped ((hstop steps hR).trans hstopped)]
    exact ⟨rfl, rfl, rfl, rfl, hR⟩
  · intro steps asked c s hgo s' hR
    rw [Cpu.runFrom_spent ((hstop steps hR).trans hgo)]
    exact ⟨rfl, rfl, rfl, rfl, hR⟩
  · intro budget steps asked c s e c₁ s₁ hgo hround s' hR
    obtain ⟨hexit, hcpu, hafter⟩ := h.round hR steps c
    rw [hround] at hexit hcpu hafter
    rw [Cpu.runFrom_ends ((hstop steps hR).trans hgo) (Prod.ext hexit (Prod.ext hcpu rfl))]
    exact ⟨rfl, rfl, rfl, rfl, hafter⟩
  · intro budget steps asked c s c₁ s₁ r hgo hround ih s' hR
    obtain ⟨hexit, hcpu, hafter⟩ := h.round hR steps c
    rw [hround] at hexit hcpu hafter
    rw [Cpu.runFrom_goes ((hstop steps hR).trans hgo) (Prod.ext hexit (Prod.ext hcpu rfl))]
    exact ih _ hafter

end SameAnswers

/-! ### Rows of bytes with swapped words -/

/-- The bytes with those of each word in reverse. Bytes behind the last whole word stay. -/
def swapWords : List UInt8 → List UInt8
  | a :: b :: c :: d :: rest => d :: c :: b :: a :: swapWords rest
  | rest => rest

/-- A file with swapped words. -/
def swappedFile (bytes : ByteArray) : ByteArray := (swapWords bytes.data.toList).toByteArray

theorem length_swapWords (bs : List UInt8) : (swapWords bs).length = bs.length := by
  fun_induction swapWords bs with
  | case1 a b c d rest ih => simp only [List.length_cons, ih]
  | case2 rest _ => rfl

theorem swapWords_swapWords (bs : List UInt8) : swapWords (swapWords bs) = bs := by
  fun_induction swapWords bs with
  | case1 a b c d rest ih => rw [swapWords, ih]
  | case2 rest h => exact swapWords.eq_2 rest h

theorem size_swappedFile (bytes : ByteArray) : (swappedFile bytes).size = bytes.size := by
  rw [swappedFile, List.size_toByteArray, length_swapWords]
  rfl

namespace Cpu

/-- Swapped words in the other order are the words they were. -/
theorem wordsOf_swapWords (bs : List UInt8) :
    wordsOf .little (swapWords bs) = wordsOf .big bs := by
  fun_induction swapWords bs with
  | case1 a b c d rest ih =>
    rw [wordsOf, wordsOf, ih]
    rfl
  | case2 rest h => rw [wordsOf.eq_2 _ rest h, wordsOf.eq_2 _ rest h]

theorem wordsOf_swappedFile (bytes : ByteArray) :
    wordsOf .little (swappedFile bytes).data.toList = wordsOf .big bytes.data.toList := by
  rw [swappedFile, List.toList_data_toByteArray, wordsOf_swapWords]

/-- The bytes of the words in a row of bytes. -/
theorem flatMap_wordsOf (o : ByteOrder) {bs : List UInt8} (h : bs.length % 4 = 0) :
    (wordsOf o bs).flatMap o.bytes = bs := by
  fun_induction wordsOf o bs with
  | case1 a b c d rest ih =>
    rw [List.flatMap_cons, o.bytes_word, ih (by simp only [List.length_cons] at h; omega)]
    rfl
  | case2 bs hnone =>
    have hshort := length_of_no_word hnone
    exact (List.eq_nil_of_length_eq_zero (by omega)).symm

theorem getElem?_wordsOf (o : ByteOrder) {bs : List UInt8} {k : Nat} (h : 4 * k + 4 ≤ bs.length) :
    (wordsOf o bs)[k]? = some (o.word (bs.getD (4 * k) 0) (bs.getD (4 * k + 1) 0)
      (bs.getD (4 * k + 2) 0) (bs.getD (4 * k + 3) 0)) := by
  fun_induction wordsOf o bs generalizing k with
  | case1 a b c d rest ih =>
    cases k with
    | zero => rfl
    | succ k => exact ih (by simp only [List.length_cons] at h; omega)
  | case2 bs hnone =>
    have hshort := length_of_no_word hnone
    omega

end Cpu

/-! ### Memories with swapped words -/

theorem ByteStore.length_toList (s : ByteStore) : s.toList.length = s.size := by
  rw [toList, List.length_map, List.length_range]

theorem ByteStore.getD_toList (s : ByteStore) {i : Nat} (h : i < s.size) :
    s.toList.getD i 0 = s.get i := by
  rw [toList, List.getD_eq_getElem?_getD, List.getElem?_map, List.getElem?_range h]
  rfl

namespace Ram

variable {m m' : Ram}

/-- The words of a memory after a row of words was laid over it. -/
theorem wordAt_layWords (m : Ram) {i : Nat} {bs : List UInt8} (hlen : bs.length % 4 = 0)
    (hfits : 4 * i + bs.length ≤ m.bytes.size) (k : Nat) :
    ({ m with bytes := m.bytes.setAll (4 * i) bs } : Ram).wordAt (4 * k) =
      if i ≤ k ∧ k < i + bs.length / 4 then (Cpu.wordsOf m.order bs).getD (k - i) 0
      else m.wordAt (4 * k) := by
  have hget := get_setAll m.bytes bs hfits
  -- a word lies inside the row or outside of it, with all of its bytes
  split
  · rename_i hin
    have hbyte : ∀ j < 4, (m.bytes.setAll (4 * i) bs).get (4 * k + j) =
        bs.getD (4 * (k - i) + j) 0 := by
      intro j hj
      rw [hget, if_pos (by omega)]
      congr 1
      omega
    rw [List.getD_eq_getElem?_getD, Cpu.getElem?_wordsOf m.order (by omega), wordAt_eq hbyte]
    rfl
  · have hbyte : ∀ j < 4, (m.bytes.setAll (4 * i) bs).get (4 * k + j) = m.bytes.get (4 * k + j) := by
      intro j hj
      rw [hget, if_neg (by omega)]
    exact wordAt_eq (b := fun j => m.bytes.get (4 * k + j)) hbyte

/-- The words of a memory are those its bytes make up. -/
theorem wordsOf_bytes (m : Ram) {k : Nat} (h : 4 * k + 4 ≤ m.bytes.size) :
    (Cpu.wordsOf m.order m.bytes.toList)[k]? = some (m.wordAt (4 * k)) := by
  have hlen := m.bytes.length_toList
  rw [Cpu.getElem?_wordsOf m.order (by omega), m.bytes.getD_toList (by omega),
    m.bytes.getD_toList (by omega), m.bytes.getD_toList (by omega), m.bytes.getD_toList (by omega)]
  rfl

/-- Two memories at the same addresses that hold the same words, `m` with the most
significant byte first and `m'` with the least. -/
structure Swapped (m m' : Ram) : Prop where
  aligned : m.base.isAligned
  whole : m.bytes.size % 4 = 0
  base : m'.base = m.base
  size : m'.bytes.size = m.bytes.size
  big : m.order = .big
  little : m'.order = .little
  words : ∀ k, m'.wordAt (4 * k) = m.wordAt (4 * k)

theorem swapped_zero {size : Nat} (hsize : size % 4 = 0) {base : Word} (hbase : base.isAligned) :
    Swapped (zero size base .big) (zero size base .little) := by
  refine ⟨hbase, hsize, rfl, rfl, rfl, rfl, fun k => ?_⟩
  simp only [wordAt, zero, ByteStore.get_zeros]
  rfl

namespace Swapped

/-- **A row of bytes for the same words** leaves the same words. -/
theorem setAll (h : Swapped m m') {i : Nat} {bs bs' : List UInt8}
    (hwords : Cpu.wordsOf m'.order bs' = Cpu.wordsOf m.order bs) (hlen : bs'.length = bs.length)
    (hfour : bs.length % 4 = 0) (hfits : 4 * i + bs.length ≤ m.bytes.size) :
    Swapped { m with bytes := m.bytes.setAll (4 * i) bs }
      { m' with bytes := m'.bytes.setAll (4 * i) bs' } := by
  have hsize : ∀ (s : ByteStore) bs, (s.setAll (4 * i) bs).size = s.size := fun s bs =>
    size_setAll s (4 * i) bs
  refine ⟨h.aligned, ?_, h.base, ?_, h.big, h.little, fun k => ?_⟩
  · show (m.bytes.setAll _ _).size % 4 = 0
    rw [hsize, h.whole]
  · show (m'.bytes.setAll _ _).size = (m.bytes.setAll _ _).size
    rw [hsize, hsize, h.size]
  · rw [wordAt_layWords m hfour hfits, wordAt_layWords m' (by omega) (by rw [hlen, h.size]; exact hfits),
      hwords, hlen, h.words]

/-- The base is aligned and so is every address, so an offset is that of a word. -/
theorem offset_word (h : Swapped m m') {a : Word} {o : Nat} (ho : m.offset a = .ok o) :
    ∃ k, o = 4 * k ∧ 4 * k + 4 ≤ m.bytes.size := by
  obtain ⟨ha, hoffset, hfits⟩ := offset_ok ho
  have hbase := Word.isAligned_iff.mp h.aligned
  exact ⟨o / 4, by omega, by omega⟩

theorem read (h : Swapped m m') (a : Word) : m'.read a = m.read a := by
  unfold Ram.read
  rw [offset_congr h.base h.size]
  cases ho : m.offset a with
  | error e => rfl
  | ok o =>
    obtain ⟨k, rfl, -⟩ := h.offset_word ho
    exact congrArg Except.ok (h.words k)

theorem write (h : Swapped m m') (a v : Word) :
    (m'.write a v).1 = (m.write a v).1 ∧ Swapped (m.write a v).2 (m'.write a v).2 := by
  unfold Ram.write
  rw [offset_congr h.base h.size]
  cases ho : m.offset a with
  | error e => exact ⟨rfl, h⟩
  | ok o =>
    obtain ⟨k, rfl, hfits⟩ := h.offset_word ho
    -- the word that is written is a row of bytes for itself in both orders
    have hword : ∀ o : ByteOrder, Cpu.wordsOf o (o.bytes v) = [v] := by
      intro o
      rw [← List.append_nil (o.bytes v), Cpu.wordsOf_bytes]
      rfl
    have hlen := m.order.length_bytes v
    have hlen' := m'.order.length_bytes v
    exact ⟨rfl, h.setAll ((hword _).trans (hword _).symm) (by omega) (by omega) (by omega)⟩

/-- A file and the one with swapped words, loaded at a word. -/
theorem loadImage (h : Swapped m m') {offset : Nat} (hoffset : offset % 4 = 0) {image : ByteArray}
    (himage : image.size % 4 = 0) {loaded : Ram} (hload : m.loadImage offset image = .ok loaded) :
    ∃ loaded', m'.loadImage offset (swappedFile image) = .ok loaded' ∧ Swapped loaded loaded' := by
  unfold Ram.loadImage at hload ⊢
  rw [size_swappedFile, h.size]
  split at hload
  · cases hload
  · split at hload
    · cases hload
    · rename_i hsmall hfits
      cases hload
      obtain ⟨i, rfl⟩ : ∃ i, offset = 4 * i := ⟨offset / 4, by omega⟩
      have hlen : image.data.toList.length = image.size := rfl
      rw [if_neg hsmall, if_neg hfits]
      refine ⟨_, rfl, h.setAll ?_ (size_swappedFile image) himage (by omega)⟩
      rw [h.big, h.little]
      exact Cpu.wordsOf_swappedFile image

/-- All bytes of the two memories make up the same words, also those no address reaches. -/
theorem wordsOf_bytes (h : Swapped m m') :
    Cpu.wordsOf .little m'.bytes.toList = Cpu.wordsOf .big m.bytes.toList := by
  have hlen := m.bytes.length_toList
  have hlen' := m'.bytes.length_toList
  have hsize := h.size
  refine List.ext_getElem? fun k => ?_
  by_cases hk : 4 * k + 4 ≤ m.bytes.size
  · have hbig := m.wordsOf_bytes hk
    have hlittle := m'.wordsOf_bytes (hsize ▸ hk)
    rw [h.big] at hbig
    rw [h.little] at hlittle
    rw [hbig, hlittle, h.words]
  · rw [List.getElem?_eq_none, List.getElem?_eq_none]
    · rw [Cpu.length_wordsOf]
      omega
    · rw [Cpu.length_wordsOf]
      omega

/-- **Memories that hold the same words are each other's with swapped words.** -/
theorem bytes (h : Swapped m m') : m'.bytes.toList = swapWords m.bytes.toList := by
  have hwhole : m.bytes.toList.length % 4 = 0 := by rw [m.bytes.length_toList, h.whole]
  have hwhole' : m'.bytes.toList.length % 4 = 0 := by
    rw [m'.bytes.length_toList, h.size, h.whole]
  calc m'.bytes.toList
      = (Cpu.wordsOf .little m'.bytes.toList).flatMap ByteOrder.little.bytes :=
        (Cpu.flatMap_wordsOf .little hwhole').symm
    _ = (Cpu.wordsOf .little (swapWords m.bytes.toList)).flatMap ByteOrder.little.bytes := by
        rw [h.wordsOf_bytes, Cpu.wordsOf_swapWords]
    _ = swapWords m.bytes.toList :=
        Cpu.flatMap_wordsOf .little (by rw [length_swapWords]; exact hwhole)

end Swapped
end Ram

namespace Mailbox

/-- Two mailboxes with the same mail, in memories that hold the same words. -/
structure Swapped (m m' : Mailbox) : Prop where
  ram : m.ram.Swapped m'.ram
  sent : m'.sent = m.sent
  status : m'.status = m.status

theorem Swapped.receive {m m' : Mailbox} (h : Swapped m m') (addr v : Word) :
    Swapped (m.receive addr v) (m'.receive addr v) := by
  have haddr : m'.outputAddr = m.outputAddr := by
    unfold outputAddr
    rw [h.ram.base, h.ram.size]
  unfold Mailbox.receive statusAddr
  rw [haddr, h.sent]
  by_cases houtput : addr = m.outputAddr
  · rw [if_pos houtput, if_pos houtput]
    exact ⟨h.ram, rfl, h.status⟩
  · rw [if_neg houtput, if_neg houtput]
    by_cases hstatus : addr = m.outputAddr - 4
    · rw [if_pos hstatus, if_pos hstatus]
      exact ⟨h.ram, rfl, rfl⟩
    · rw [if_neg hstatus, if_neg hstatus]
      exact h

theorem sameAnswers : SameAnswers Mailbox.bus Mailbox.bus Swapped where
  read addr h := ⟨h.ram.read addr, h⟩
  write := by
    rintro ⟨ram, sent, status⟩ ⟨ram', sent', status'⟩ addr v h
    obtain ⟨hanswer, hafter⟩ := h.ram.write addr v
    show (Mailbox.write _ addr v).1 = (Mailbox.write _ addr v).1 ∧
      Swapped (Mailbox.write _ addr v).2 (Mailbox.write _ addr v).2
    unfold Mailbox.write
    simp only at hanswer hafter ⊢
    rcases hwrite : ram.write addr v with ⟨answer, after⟩
    rcases hwrite' : ram'.write addr v with ⟨answer', after'⟩
    rw [hwrite, hwrite'] at hanswer hafter
    cases hanswer
    have hnew : Swapped ⟨after, sent, status⟩ ⟨after', sent', status'⟩ := ⟨hafter, h.sent, h.status⟩
    cases answer with
    | error e => exact ⟨rfl, hnew⟩
    | ok _ => exact ⟨rfl, hnew.receive addr v⟩
  hear _ h := h

end Mailbox

/-! ### Records with swapped words -/

namespace Cpu

variable (o : ByteOrder)

/-- No field of a record looks at the order of files. -/
theorem recordFields_withOrder {n : Nat} {field : RecordField} (h : field ∈ recordFields n) (c : Cpu)
    (w : Word) : field (c.withOrder o) w = (field c w).map (withOrder o) := by
  have hpsr : psrField (c.withOrder o) w = (psrField c w).map (withOrder o) := by
    simp only [psrField, withOrder, apply_ite (Except.map (withOrder o))]
    rfl
  have htrap : trapField (c.withOrder o) w = (trapField c w).map (withOrder o) := by
    simp only [trapField, apply_ite (Except.map (withOrder o))]
    cases TrapKind.ofCode w.toUInt8 <;> rfl
  rw [recordFields_eq] at h
  simp only [registerFields, tailFields, List.mem_append, List.mem_cons, List.mem_map,
    List.not_mem_nil, or_false] at h
  rcases h with (rfl | rfl | ⟨i, -, rfl⟩) | rfl | rfl | rfl | rfl | rfl | rfl | rfl
  case inr.inl => exact hpsr
  case inr.inr.inr.inr.inr.inl => exact htrap
  all_goals rfl

theorem overlay_withOrder {fields : List RecordField}
    (hfields : ∀ field ∈ fields, ∀ c w, field (c.withOrder o) w = (field c w).map (withOrder o))
    (ws : List Word) (c : Cpu) :
    overlay fields ws (c.withOrder o) = (overlay fields ws c).map (withOrder o) := by
  induction fields generalizing ws c with
  | nil => rfl
  | cons field fields ih =>
    cases ws with
    | nil => rfl
    | cons w ws =>
      simp only [overlay, hfields field List.mem_cons_self]
      cases field c w with
      | error e => rfl
      | ok c₁ => exact ih (fun f hf => hfields f (List.mem_cons_of_mem _ hf)) ws c₁

/-- **A record with swapped words, read in the other order,** is refused for the same
reason or makes the same processor. -/
theorem loadRecord_swapped (c : Cpu) (bytes : ByteArray) :
    (c.withOrder o).loadRecord (swappedFile bytes) .little =
      (c.loadRecord bytes .big).map (withOrder o) := by
  have hlen : (c.withOrder o).recordLength = c.recordLength := rfl
  have hregs : (c.withOrder o).regs = c.regs := rfl
  have hoverlay := overlay_withOrder o
    (fun field (h : field ∈ recordFields c.regs.size) => recordFields_withOrder o h)
    (wordsOf .big bytes.data.toList) c
  unfold loadRecord
  rw [size_swappedFile, hlen, hregs, wordsOf_swappedFile, hoverlay]
  simp only [apply_ite (Except.map (withOrder o))]
  cases overlay (recordFields c.regs.size) (wordsOf .big bytes.data.toList) c <;> rfl

end Cpu

/-! ### Runs from swapped files -/

/-- **The byte order of files is not seen by a guest.** An image is loaded into a memory
with the most significant byte first, and the image with swapped words into one with the
least significant byte first, and a record is laid over the processor in both ways. Either
both are refused for the same reason, or both make the same processor but for the order it
names, and every run ends in the same way after as many rounds, leaves the same
processor but for that order, the same outputs and the same status, and leaves memories
that are each other's with swapped words. -/
theorem run_swapped (c : Cpu) {size : Nat} (hsize : size % 4 = 0) {base : Word}
    (hbase : base.isAligned) {offset : Nat} (hoffset : offset % 4 = 0) {image : ByteArray}
    (himage : image.size % 4 = 0) {ram : Ram}
    (hload : (Ram.zero size base .big).loadImage offset image = .ok ram) (record : ByteArray) :
    ∃ ram', (Ram.zero size base .little).loadImage offset (swappedFile image) = .ok ram' ∧
      match c.loadRecord record .big with
      | .error e => (c.withOrder .little).loadRecord (swappedFile record) .little = .error e
      | .ok d =>
        (c.withOrder .little).loadRecord (swappedFile record) .little = .ok (d.withOrder .little) ∧
        ∀ budget,
          let r := d.run Mailbox.bus (fun _ m => m.finished) budget { ram := ram }
          let r' := (d.withOrder .little).run Mailbox.bus (fun _ m => m.finished) budget
            { ram := ram' }
          r'.exit = r.exit ∧ r'.steps = r.steps ∧ r'.cpu = r.cpu.withOrder .little ∧
            r'.device.outputs = r.device.outputs ∧ r'.device.status = r.device.status ∧
            r'.device.ram.bytes.toList = swapWords r.device.ram.bytes.toList ∧
            r.device.ram.bytes.toList = swapWords r'.device.ram.bytes.toList := by
  obtain ⟨ram', hload', hram⟩ := (Ram.swapped_zero hsize hbase).loadImage hoffset himage hload
  refine ⟨ram', hload', ?_⟩
  rw [Cpu.loadRecord_swapped]
  cases c.loadRecord record .big with
  | error e => rfl
  | ok d =>
    refine ⟨rfl, fun budget => ?_⟩
    let stop : Nat → Mailbox → Bool := fun _ m => m.finished
    have hstart : Mailbox.Swapped { ram := ram } { ram := ram' } := ⟨hram, rfl, rfl⟩
    have hstop : ∀ n {m m' : Mailbox}, m.Swapped m' → stop n m' = stop n m :=
      fun _ _ _ h => congrArg Option.isSome h.status
    have hsame := Mailbox.sameAnswers.runFrom hstop budget 0 0 d hstart
    have hbytes := hsame.device.ram.bytes
    intro r r'
    -- the order the processor names is not asked for by a run
    have hr' : r' = Cpu.resultWithOrder .little (d.run Mailbox.bus stop budget { ram := ram' }) :=
      Cpu.run_withOrder ..
    rw [hr']
    refine ⟨hsame.exit, hsame.steps, congrArg (Cpu.withOrder .little) hsame.cpu,
      congrArg List.reverse hsame.device.sent, hsame.device.status, hbytes, ?_⟩
    calc r.device.ram.bytes.toList
        = swapWords (swapWords r.device.ram.bytes.toList) := (swapWords_swapWords _).symm
      _ = swapWords (d.run Mailbox.bus stop budget { ram := ram' }).device.ram.bytes.toList :=
        congrArg swapWords hbytes.symm

/-- A file of one word that does nothing. -/
def nopFile : ByteArray := ⟨#[0x01, 0x00, 0x00, 0x00]⟩

/-- A record that ends behind the program counter. -/
def counterFile : ByteArray := ⟨#[0x00, 0x00, 0x00, 0x08]⟩

/-- A memory of four words with one instruction in the third, and a record that puts the
program counter there. -/
theorem run_swapped_nop : ∃ ram ram',
    (Ram.zero 16 0 .big).loadImage 8 nopFile = .ok ram ∧
    (Ram.zero 16 0 .little).loadImage 8 (swappedFile nopFile) = .ok ram' ∧
    resetTwo.loadRecord counterFile .big = .ok { resetTwo with pc := 8 } ∧
    (resetTwo.withOrder .little).loadRecord (swappedFile counterFile) .little =
      .ok (({ resetTwo with pc := 8 } : Cpu).withOrder .little) ∧
    ∀ budget,
      let r := ({ resetTwo with pc := 8 } : Cpu).run Mailbox.bus (fun _ m => m.finished) budget
        { ram := ram }
      let r' := (({ resetTwo with pc := 8 } : Cpu).withOrder .little).run Mailbox.bus
        (fun _ m => m.finished) budget { ram := ram' }
      r'.exit = r.exit ∧ r'.device.ram.bytes.toList = swapWords r.device.ram.bytes.toList := by
  have hrecord : resetTwo.loadRecord counterFile .big = .ok { resetTwo with pc := 8 } := rfl
  obtain ⟨ram', hload', hrest⟩ := run_swapped resetTwo (show 16 % 4 = 0 from rfl)
    (show Word.isAligned 0 from rfl) (show 8 % 4 = 0 from rfl) (show nopFile.size % 4 = 0 from rfl)
    rfl counterFile
  rw [hrecord] at hrest
  obtain ⟨hrecord', hrun⟩ := hrest
  refine ⟨_, ram', rfl, hload', hrecord, hrecord', fun budget => ?_⟩
  obtain ⟨hexit, -, -, -, -, hbytes, -⟩ := hrun budget
  exact ⟨hexit, hbytes⟩

end SparcIU
