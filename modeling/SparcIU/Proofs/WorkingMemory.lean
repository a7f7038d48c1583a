/-
# Memory that keeps what is written

A device has a working memory at some addresses: a read answers with the word
last written, a write changes one word and no other, and remarks change
nothing (`WorkingMemory`). Sixteen words of it make up a save area, and what a
spill leaves there a fill finds again.

Key definitions: `WorkingMemory`, `slot`, `Access.asked`, `WorkingMemory.Holds`,
`Ram.workingMemory`.
Key theorems: `Cpu.asked_storeWindow`, `Cpu.asked_loadWindow`,
`WorkingMemory.view_storeWindow`, `WorkingMemory.loaded_loadWindow`.
-/
import SparcIU.Proofs.Bytes
import SparcIU.Proofs.Transcript
import SparcIU.Execution.Delivery
import SparcIU.Ram
import Mathlib.Tactic.SplitIfs

namespace SparcIU

/-- The device of a bus as a memory. Addresses that are none of the memory's may
do anything, and some of the memory's may be for reading only. -/
structure WorkingMemory {σ : Type} (bus : Bus σ) where
  /-- The word at an address, if the address is one of the memory's. -/
  view : σ → Word → Option Word
  writable : Word → Prop
  read_ok : ∀ {s a v}, view s a = some v → (bus.read a s).1 = .ok v ∧ view (bus.read a s).2 = view s
  write_ok : ∀ {s a v} w, view s a = some v → writable a → (bus.write a w s).1 = .ok () ∧
    ∀ b, view (bus.write a w s).2 b = if b = a then some w else view s b
  hear_ok : ∀ r s, view (bus.hear r s) = view s

/-! ### Words in a row -/

/-- The address of word `k` from `addr` on. -/
def slot (addr : Word) (k : Nat) : Word := addr + UInt32.ofNat (4 * k)

@[simp] theorem slot_zero (addr : Word) : slot addr 0 = addr := UInt32.add_zero addr

theorem slot_add_four (addr : Word) (k : Nat) : slot addr k + 4 = slot addr (k + 1) := by
  unfold slot
  rw [UInt32.add_assoc, Nat.mul_add, UInt32.ofNat_add]
  rfl

theorem slot_succ (addr : Word) (k : Nat) : slot (addr + 4) k = slot addr (k + 1) := by
  rw [← slot_add_four]
  unfold slot
  rw [UInt32.add_assoc, UInt32.add_comm 4, UInt32.add_assoc]

theorem slot_inj {addr : Word} {j k : Nat} (hj : j < 16) (hk : k < 16) :
    slot addr j = slot addr k ↔ j = k := by
  unfold slot
  rw [UInt32.add_right_inj, ← UInt32.toNat_inj, UInt32.toNat_ofNat', UInt32.toNat_ofNat']
  omega

/-- The words from an aligned address on are aligned. -/
theorem isAligned_slot {addr : Word} (h : addr.isAligned) (k : Nat) : (slot addr k).isAligned := by
  unfold slot
  rw [Word.isAligned_iff] at h ⊢
  rw [UInt32.toNat_add, UInt32.toNat_ofNat']
  omega

/-! ### What the bus is asked for -/

/-- What an access asks for: its address, and the word if it is a write. -/
def Access.asked : Access → Word × Option Word
  | read addr _ => (addr, none)
  | write addr v _ => (addr, some v)

theorem Cpu.asked_storeWindow (c : Cpu) (addr : Word) (rs : List Reg) :
    (c.storeWindow addr rs).Always fun l _ =>
      l.map Access.asked = rs.mapIdx fun k r => (slot addr k, some (c.get r)) := by
  induction rs generalizing addr with
  | nil => exact rfl
  | cons r rs ih =>
    intro answer
    have hrest : (c.storeWindow (addr + 4) rs).Always fun l _ =>
        (Access.write addr (c.get r) answer :: l).map Access.asked =
          (r :: rs).mapIdx fun k r => (slot addr k, some (c.get r)) := by
      refine (ih (addr + 4)).mono fun l _ hl => ?_
      simp only [slot_succ] at hl
      rw [List.map_cons, List.mapIdx_cons, hl, slot_zero]
      rfl
    cases answer with
    | ok _ => exact hrest
    | error e => exact hrest

theorem Cpu.asked_loadWindow (c : Cpu) (addr : Word) (rs : List Reg) :
    (c.loadWindow addr rs).Always fun l _ =>
      l.map Access.asked = rs.mapIdx fun k _ => (slot addr k, none) := by
  induction rs generalizing c addr with
  | nil => exact rfl
  | cons r rs ih =>
    intro answer
    have hrest : ∀ x : Cpu, (x.loadWindow (addr + 4) rs).Always fun l _ =>
        (Access.read addr answer :: l).map Access.asked =
          (r :: rs).mapIdx fun k _ => (slot addr k, none) := by
      refine fun x => (ih x (addr + 4)).mono fun l _ hl => ?_
      simp only [slot_succ] at hl
      rw [List.map_cons, List.mapIdx_cons, hl, slot_zero]
      rfl
    cases answer with
    | ok v => exact hrest (c.set r v)
    | error e => exact hrest c

/-! ### Save areas -/

/-- Two save areas have no word in common. -/
def AreasApart (sp sp' : Word) : Prop := ∀ j < 16, ∀ k < 16, slot sp j ≠ slot sp' k

namespace WorkingMemory

variable {σ : Type} {bus : Bus σ} (mem : WorkingMemory bus)

/-- The save area at a stack pointer lies in memory that can be written. -/
def Area (s : σ) (sp : Word) : Prop :=
  ∀ k < 16, (mem.view s (slot sp k)).isSome ∧ mem.writable (slot sp k)

/-- The save area at a stack pointer holds a window's locals and ins. -/
def Holds (s : σ) (sp : Word) (kept : Reg → Word) : Prop :=
  ∀ k r, Reg.saveArea[k]? = some r → mem.view s (slot sp k) = some (kept r)

/-- Two states of a device have the same addresses for memory. -/
def SameExtent (s s' : σ) : Prop := ∀ a, (mem.view s' a).isSome = (mem.view s a).isSome

variable {mem}

theorem Area.of_sameExtent {s s' : σ} (h : mem.SameExtent s s') {sp : Word} (ha : mem.Area s sp) :
    mem.Area s' sp :=
  fun k hk => ⟨(h _).trans (ha k hk).1, (ha k hk).2⟩

/-! ### Spills -/

/-- **A spill writes its words and no others.** -/
theorem view_storeWindow (c : Cpu) {addr : Word} {rs : List Reg} {s : σ} (hlen : rs.length ≤ 16)
    (harea : ∀ k < rs.length, (mem.view s (slot addr k)).isSome ∧ mem.writable (slot addr k)) :
    let s' := ((c.storeWindow addr rs).hold bus s).2
    (∀ k r, rs[k]? = some r → mem.view s' (slot addr k) = some (c.get r)) ∧
      ∀ a, (∀ k < rs.length, a ≠ slot addr k) → mem.view s' a = mem.view s a := by
  induction rs generalizing addr s with
  | nil => exact ⟨fun k r h => by simp at h, fun a _ => rfl⟩
  | cons r rs ih =>
    have hlen' : rs.length + 1 ≤ 16 := hlen
    obtain ⟨v, hv⟩ := Option.isSome_iff_exists.mp (harea 0 (Nat.succ_pos _)).1
    rw [slot_zero] at hv
    obtain ⟨hok, hview⟩ := mem.write_ok (c.get r) hv (by simpa using (harea 0 (Nat.succ_pos _)).2)
    -- the later words are not the first one
    have hne : ∀ k < rs.length, slot (addr + 4) k ≠ addr := by
      intro k hk he
      rw [slot_succ] at he
      have := (slot_inj (by omega) (by omega)).mp (he.trans (slot_zero addr).symm)
      omega
    have harea' : ∀ k < rs.length,
        (mem.view (bus.write addr (c.get r) s).2 (slot (addr + 4) k)).isSome ∧
          mem.writable (slot (addr + 4) k) := by
      intro k hk
      rw [hview, if_neg (hne k hk), slot_succ]
      exact harea (k + 1) (by simpa using hk)
    have hrest := ih (by omega) harea'
    have hhold : (c.storeWindow addr (r :: rs)).hold bus s
        = (c.storeWindow (addr + 4) rs).hold bus (bus.write addr (c.get r) s).2 := by
      rw [Cpu.storeWindow, Dialogue.hold]
      simp only [hok]
    rw [hhold]
    refine ⟨fun k r' hr => ?_, fun a ha => ?_⟩
    · cases k with
      | zero =>
        cases hr
        rw [slot_zero, hrest.2 addr fun k hk he => hne k hk he.symm, hview, if_pos rfl]
      | succ k =>
        rw [← slot_succ]
        exact hrest.1 k r' hr
    · rw [hrest.2 a fun k hk => slot_succ addr k ▸ ha (k + 1) (by simpa using hk), hview,
        if_neg (by simpa using ha 0 (Nat.succ_pos _))]

/-! ### Fills -/

/-- **A fill reads its words and changes none.** -/
theorem loaded_loadWindow (c : Cpu) {addr : Word} {rs : List Reg} {s : σ} {f : Reg → Word}
    (hview : ∀ k r, rs[k]? = some r → mem.view s (slot addr k) = some (f r)) :
    (∀ (k : Nat) r, rs[k]? = some r →
      ((c.loadWindow addr rs).transcript bus s)[k]?.bind Access.loaded = some (f r)) ∧
      mem.view ((c.loadWindow addr rs).hold bus s).2 = mem.view s := by
  induction rs generalizing c addr s with
  | nil => exact ⟨fun k r h => by simp at h, rfl⟩
  | cons r rs ih =>
    have hv := hview 0 r rfl
    rw [slot_zero] at hv
    obtain ⟨hok, hsame⟩ := mem.read_ok hv
    have hview' : ∀ k r', rs[k]? = some r' →
        mem.view (bus.read addr s).2 (slot (addr + 4) k) = some (f r') := by
      intro k r' hr
      rw [hsame, slot_succ]
      exact hview (k + 1) r' hr
    have hrest := ih (c.set r (f r)) hview'
    have htranscript : (c.loadWindow addr (r :: rs)).transcript bus s =
        .read addr (.ok (f r)) ::
          ((c.set r (f r)).loadWindow (addr + 4) rs).transcript bus (bus.read addr s).2 := by
      rw [Cpu.loadWindow, Dialogue.transcript]
      simp only [hok]
    have hhold : (c.loadWindow addr (r :: rs)).hold bus s
        = ((c.set r (f r)).loadWindow (addr + 4) rs).hold bus (bus.read addr s).2 := by
      rw [Cpu.loadWindow, Dialogue.hold]
      simp only [hok]
    rw [htranscript, hhold]
    refine ⟨fun k r' hr => ?_, hrest.2.trans hsame⟩
    cases k with
    | zero =>
      cases hr
      rfl
    | succ k => exact hrest.1 k r' hr

end WorkingMemory

/-! ### An ordinary memory -/

namespace Ram

theorem size_setAll (s : ByteStore) (i : Nat) (bs : List UInt8) : (s.setAll i bs).size = s.size := by
  induction bs generalizing s i with
  | nil => rfl
  | cons b bs ih => exact ih (s.set i b) (i + 1)

/-- What stands at an index after a row of bytes was written from another one
on. -/
theorem get_setAll (s : ByteStore) (bs : List UInt8) {o : Nat} (h : o + bs.length ≤ s.size) (i : Nat) :
    (s.setAll o bs).get i =
      if o ≤ i ∧ i < o + bs.length then bs.getD (i - o) 0 else s.get i := by
  induction bs generalizing s o with
  | nil => rw [if_neg (by simp only [List.length_nil]; omega)]; rfl
  | cons b bs ih =>
    rw [List.length_cons] at h ⊢
    have hrest := ih (s.set o b) (o := o + 1) (by rw [ByteStore.size_set]; omega)
    show ((s.set o b).setAll (o + 1) bs).get i = _
    rw [hrest, ByteStore.get_set s o i b (by omega)]
    by_cases hi : o + 1 ≤ i ∧ i < o + 1 + bs.length
    · rw [if_pos hi, if_pos (by omega), show i - o = i - (o + 1) + 1 by omega, List.getD_cons_succ]
    · rw [if_neg hi]
      by_cases he : i = o
      · rw [if_pos he, if_pos (by omega), he, Nat.sub_self, List.getD_cons_zero]
      · rw [if_neg he, if_neg (by omega)]

/-- An address that has an offset is aligned, and its offset is its distance
from the base, four bytes before the end at most. -/
theorem offset_ok {m : Ram} {a : Word} {o : Nat} (h : m.offset a = .ok o) :
    a.toNat % 4 = 0 ∧ a.toNat = m.base.toNat + o ∧ o + 4 ≤ m.bytes.size := by
  unfold offset at h
  split at h
  · cases h
  · rename_i ha
    split at h
    · cases h
    · rename_i hbase
      simp only at h
      split at h
      · rename_i hsize
        cases h
        have hle : m.base.toNat ≤ a.toNat := by
          rw [UInt32.lt_iff_toNat_lt] at hbase
          omega
        have hsub : (a - m.base).toNat = a.toNat - m.base.toNat :=
          UInt32.toNat_sub_of_le _ _ (UInt32.le_iff_toNat_le.mpr hle)
        refine ⟨?_, by omega, hsize⟩
        rw [Bool.not_eq_true', Bool.not_eq_false] at ha
        exact Word.isAligned_iff.mp ha
      · cases h

/-- An address has one offset in memories of one base and size. -/
theorem offset_congr {m m' : Ram} (hbase : m'.base = m.base) (hsize : m'.bytes.size = m.bytes.size)
    (a : Word) : m'.offset a = m.offset a := by
  unfold offset
  rw [hbase, hsize]

/-- The word at an address of the memory. -/
def view (m : Ram) (a : Word) : Option Word := (m.read a).toOption

theorem view_eq_some {m : Ram} {a v : Word} (h : m.view a = some v) :
    ∃ o, m.offset a = .ok o ∧ v = m.wordAt o := by
  unfold view read at h
  split at h
  · cases h
  · rename_i o ho
    cases h
    exact ⟨o, ho, rfl⟩

/-- An aligned address in the range of the memory has its distance from the base for an
offset. -/
theorem offset_of_range {m : Ram} {a : Word} (ha : a.isAligned) (hbase : m.base ≤ a)
    (hsize : (a - m.base).toNat + 4 ≤ m.bytes.size) : m.offset a = .ok (a - m.base).toNat := by
  unfold offset
  rw [ha, Bool.not_true, if_neg (by decide), if_neg (UInt32.not_lt.mpr hbase)]
  simp only
  rw [if_pos hsize]

/-- Such an address is one of the memory's own. -/
theorem view_of_range {m : Ram} {a : Word} (ha : a.isAligned) (hbase : m.base ≤ a)
    (hsize : (a - m.base).toNat + 4 ≤ m.bytes.size) :
    m.view a = some (m.wordAt (a - m.base).toNat) := by
  unfold view read
  rw [offset_of_range ha hbase hsize]
  rfl

/-- The word that four bytes in a row make up. -/
theorem wordAt_eq {m : Ram} {o : Nat} {b : Nat → UInt8} (h : ∀ j < 4, m.bytes.get (o + j) = b j) :
    m.wordAt o = m.order.word (b 0) (b 1) (b 2) (b 3) := by
  unfold wordAt
  rw [← h 0 (by decide), ← h 1 (by decide), ← h 2 (by decide), ← h 3 (by decide)]
  rfl

/-- A word that is written is read back, and all other words stay. -/
theorem wordAt_setAll (m : Ram) {o o' : Nat} (w : Word) (h : o + 4 ≤ m.bytes.size)
    (ho : o % 4 = o' % 4) : ({ m with bytes := m.bytes.setAll o (m.order.bytes w) } : Ram).wordAt o' =
      if o' = o then w else m.wordAt o' := by
  obtain ⟨a, b, c, d, hbytes, hword⟩ := m.order.word_bytes w
  rw [hbytes]
  have hget := get_setAll m.bytes [a, b, c, d] h
  simp only [List.length_cons, List.length_nil, Nat.zero_add, Nat.reduceAdd] at hget
  by_cases he : o' = o
  · subst he
    have hbyte : ∀ j < 4, (m.bytes.setAll o' [a, b, c, d]).get (o' + j) = [a, b, c, d].getD j 0 := by
      intro j hj
      rw [hget, if_pos (by omega), Nat.add_sub_cancel_left]
    rw [if_pos rfl, ← hword]
    exact wordAt_eq (b := fun j => [a, b, c, d].getD j 0) hbyte
  · have hbyte : ∀ j < 4, (m.bytes.setAll o [a, b, c, d]).get (o' + j) = m.bytes.get (o' + j) := by
      intro j hj
      rw [hget, if_neg (by omega)]
    rw [if_neg he]
    exact wordAt_eq (b := fun j => m.bytes.get (o' + j)) hbyte

/-- **A memory is a working memory.** -/
def workingMemory : WorkingMemory Ram.bus where
  view := view
  writable _ := True
  read_ok := by
    intro m a v h
    obtain ⟨o, ho, rfl⟩ := view_eq_some h
    refine ⟨?_, rfl⟩
    show m.read a = _
    unfold read
    rw [ho]
  write_ok := by
    intro m a v w h _
    obtain ⟨o, ho, -⟩ := view_eq_some h
    have hwrite : Ram.bus.write a w m
        = (.ok (), { m with bytes := m.bytes.setAll o (m.order.bytes w) }) := by
      show m.write a w = _
      unfold write
      rw [ho]
    obtain ⟨ha, haddr, hsize⟩ := offset_ok ho
    rw [hwrite]
    refine ⟨rfl, fun b => ?_⟩
    have hoffset : ({ m with bytes := m.bytes.setAll o (m.order.bytes w) } : Ram).offset b
        = m.offset b := by
      refine offset_congr ?_ ?_ b
      · rfl
      · exact size_setAll ..
    unfold view read
    rw [hoffset]
    cases hb : m.offset b with
    | error e =>
      rw [if_neg]
      rintro rfl
      rw [ho] at hb
      cases hb
    | ok o' =>
      obtain ⟨hb4, hbaddr, -⟩ := offset_ok hb
      have hiff : o' = o ↔ b = a := by
        rw [← UInt32.toNat_inj]
        omega
      show some (wordAt _ o') = _
      rw [wordAt_setAll m w hsize (by omega)]
      by_cases he : b = a
      · rw [if_pos (hiff.mpr he), if_pos he]
      · rw [if_neg fun h => he (hiff.mp h), if_neg he]
        rfl
  hear_ok _ _ := rfl

end Ram
end SparcIU
