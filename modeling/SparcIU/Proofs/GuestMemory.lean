/-
# What a program sees of its memory

The bus moves words, in the byte order of the memory. A program sees bytes, the most
significant of each word first (`Ram.guest`), and whatever that byte order is, its
stores and loads are those of a row of bytes: a store that completes replaces the bytes
from its address on and no other (`patch`), and a load takes the number they stand for.
So after any row of stores a load finds at each address what was stored there last
(`guest_memory`).

Everything is said of one word first: a word that is written changes the bytes that
differ in it (`Ram.guest_write_within`), and a word that is read holds the bytes at
its address (`Ram.stands_within`).

Key definitions: `patch`, `Ram.guest`, `Ram.Stands`, `Cpu.storedBytes`, `Cpu.receive`,
`CarriesOut`, `Stores`.
Key theorems: `Ram.guest_write_within`, `Ram.stands_within`, `Cpu.guest_store`,
`Cpu.guest_load`, `guest_memory`.
-/
import SparcIU.Proofs.WorkingMemory
import SparcIU.Proofs.DelayedTransfer

namespace SparcIU

/-! ### Rows of bytes -/

/-- The bytes by address, with those from `a` on replaced; addresses wrap around. -/
def patch (g : Word → Option UInt8) (a : Word) (bs : List UInt8) : Word → Option UInt8 :=
  fun b => bs[(b - a).toNat]?.or (g b)

theorem toNat_sub (b a : Word) :
    (b - a).toNat = (0x100000000 + b.toNat - a.toNat) % 0x100000000 := by
  have hlt := a.toNat_lt
  rw [UInt32.toNat_sub]
  omega

/-- Bytes that are replaced one behind the other are replaced at once. -/
theorem patch_append (g : Word → Option UInt8) (a : Word) (bs bs' : List UInt8)
    (hlen : bs.length + bs'.length ≤ 0x100000000) :
    patch (patch g a bs) (a + UInt32.ofNat bs.length) bs' = patch g a (bs ++ bs') := by
  funext b
  have ha := a.toNat_lt
  have hb := b.toNat_lt
  have hfrom := toNat_sub b a
  have hbehind := toNat_sub b (a + UInt32.ofNat bs.length)
  rw [UInt32.toNat_add, UInt32.toNat_ofNat'] at hbehind
  unfold patch
  by_cases hlt : (b - a).toNat < bs.length
  · have hnone : bs'[(b - (a + UInt32.ofNat bs.length)).toNat]? = none :=
      List.getElem?_eq_none (by omega)
    rw [hnone, List.getElem?_append_left hlt]
    rfl
  · by_cases hempty : bs'.length = 0
    · rw [List.eq_nil_of_length_eq_zero hempty, List.append_nil]
      rfl
    · have hindex : (b - (a + UInt32.ofNat bs.length)).toNat = (b - a).toNat - bs.length := by omega
      have hnone : bs[(b - a).toNat]? = none := List.getElem?_eq_none (by omega)
      rw [hindex, List.getElem?_append_right (by omega), hnone]
      rfl

namespace Word

theorem isAligned_alignDown (a : Word) : a.alignDown.isAligned := by
  rw [isAligned_iff, toNat_alignDown]
  omega

/-- A byte lies in its lane of the word around it. -/
theorem toNat_eq_lane (a : Word) : a.toNat = a.alignDown.toNat + a.lane.val := by
  have hlane : a.lane.val = a.toNat % 4 := rfl
  rw [toNat_alignDown, hlane]
  omega

/-- A half at an even address is the upper or the lower one of the word around it. -/
theorem upper_or_lower {a : Word} (heven : a.toNat % 2 = 0) :
    Cpu.isUpperHalf a = true ∧ a.toNat = a.alignDown.toNat ∨
      Cpu.isUpperHalf a = false ∧ a.toNat = a.alignDown.toNat + 2 := by
  rw [toNat_alignDown]
  cases hupper : Cpu.isUpperHalf a with
  | true =>
    have haligned := isAligned_iff.mp hupper
    exact .inl ⟨rfl, by omega⟩
  | false =>
    have hmisaligned : a.toNat % 4 ≠ 0 := by
      intro h
      exact Bool.false_ne_true (hupper.symm.trans (isAligned_iff.mpr h))
    exact .inr ⟨rfl, by omega⟩

theorem alignDown_eq_iff {A : Word} (hA : A.isAligned) (b : Word) :
    b.alignDown = A ↔ A.toNat ≤ b.toNat ∧ b.toNat < A.toNat + 4 := by
  rw [isAligned_iff] at hA
  rw [← UInt32.toNat_inj, toNat_alignDown]
  omega

end Word

/-! ### Guest bytes -/

namespace Ram

variable {m : Ram} {a A w old : Word} {bs : List UInt8}

/-- The byte a program sees at an address: its part of the word around it, if that can
be read. -/
def guest (m : Ram) (a : Word) : Option UInt8 :=
  (m.view a.alignDown).map fun w => (w >>> ((3 - a % 4) * 8)).toUInt8

theorem guest_eq (m : Ram) (a : Word) :
    m.guest a = (m.view a.alignDown).bind fun w => (ByteOrder.big.bytes w)[a.toNat % 4]? := by
  unfold guest
  cases m.view a.alignDown with
  | none => rfl
  | some w => exact Word.shift_byte a w

/-- A word that is written replaces the bytes of its address. -/
theorem guest_write (hview : m.view A = some old) (w b : Word) : (m.write A w).2.guest b =
    if b.alignDown = A then (ByteOrder.big.bytes w)[b.toNat % 4]? else m.guest b := by
  have hwrite : (m.write A w).2.view b.alignDown =
      if b.alignDown = A then some w else m.view b.alignDown :=
    (workingMemory.write_ok w hview trivial).2 b.alignDown
  rw [guest_eq, hwrite]
  split
  · rfl
  · exact (guest_eq m b).symm

/-- A word that is written with the bytes `bs` from place `k` on, and the old ones
elsewhere. -/
theorem guest_write_within (hview : m.view A = some old) (hA : A.isAligned) {k : Nat}
    (ha : a.toNat = A.toNat + k) (hfit : k + bs.length ≤ 4)
    (hnew : ∀ i < 4, (ByteOrder.big.bytes w)[i]? =
      (if k ≤ i then bs[i - k]? else none).or (ByteOrder.big.bytes old)[i]?) :
    (m.write A w).2.guest = patch m.guest a bs := by
  funext b
  have hb := b.toNat_lt
  have halt := a.toNat_lt
  have hfrom := toNat_sub b a
  have hiff := Word.alignDown_eq_iff hA b
  rw [Word.isAligned_iff] at hA
  rw [guest_write hview, patch]
  by_cases hin : b.alignDown = A
  · have hbounds := hiff.mp hin
    have hguest : m.guest b = (ByteOrder.big.bytes old)[b.toNat % 4]? := by
      rw [guest_eq, hin, hview]
      rfl
    rw [if_pos hin, hnew _ (Nat.mod_lt _ (by decide)), hguest]
    by_cases hk : k ≤ b.toNat % 4
    · rw [if_pos hk, show (b - a).toNat = b.toNat % 4 - k by omega]
    · -- an address before `a` is far behind it
      rw [if_neg hk, List.getElem?_eq_none (l := bs) (by omega)]
  · have hout : bs.length ≤ (b - a).toNat := by
      rw [hiff] at hin
      omega
    rw [if_neg hin, List.getElem?_eq_none hout]
    rfl

/-- The bytes stand in memory from an address on. -/
def Stands (m : Ram) (a : Word) (bs : List UInt8) : Prop :=
  ∀ i < bs.length, m.guest (a + UInt32.ofNat i) = bs[i]?

/-- A word that is read shows the bytes of its address. -/
theorem stands_within (hview : m.view A = some w) (hA : A.isAligned) {k : Nat}
    (ha : a.toNat = A.toNat + k) (hfit : k + bs.length ≤ 4)
    (hbs : ∀ i < bs.length, (ByteOrder.big.bytes w)[k + i]? = bs[i]?) : m.Stands a bs := by
  intro i hi
  have hAlt := A.toNat_lt
  have haligned := Word.isAligned_iff.mp hA
  have haddr : (a + UInt32.ofNat i).toNat = A.toNat + (k + i) := by
    rw [UInt32.toNat_add, UInt32.toNat_ofNat']
    omega
  have hin : (a + UInt32.ofNat i).alignDown = A := by
    rw [Word.alignDown_eq_iff hA]
    omega
  have hplace : (a + UInt32.ofNat i).toNat % 4 = k + i := by omega
  rw [guest_eq, hin, hview, ← hbs i hi, Option.bind_some, hplace]

theorem Stands.append {bs' : List UInt8} (h : m.Stands a bs)
    (h' : m.Stands (a + UInt32.ofNat bs.length) bs') : m.Stands a (bs ++ bs') := by
  intro i hi
  rw [List.length_append] at hi
  by_cases hlt : i < bs.length
  · rw [h i hlt, List.getElem?_append_left hlt]
  · have hrest := h' (i - bs.length) (by omega)
    have hsum : bs.length + (i - bs.length) = i := by omega
    rw [UInt32.add_assoc, ← UInt32.ofNat_add, hsum] at hrest
    rw [hrest, List.getElem?_append_right (by omega)]

end Ram

/-! ### Accesses that are granted -/

namespace Cpu

variable {c c' : Cpu} {m m' : Ram} {a : Word} {rd : Reg}

/-- A read that leaves no trap was granted. -/
theorem readWord_granted {next : Cpu → Word → Dialogue Cpu}
    (h : (c.readWord a next).hold Ram.bus m = (c', m')) (hp : c'.pendingTrap = none) :
    a.isAligned ∧ ∃ w, m.view a = some w ∧ (next c w).hold Ram.bus m = (c', m') := by
  unfold readWord at h
  split at h
  · rename_i ha
    refine ⟨ha, ?_⟩
    simp only [Dialogue.hold, Ram.bus] at h
    cases hread : m.read a with
    | ok w =>
      rw [hread] at h
      refine ⟨w, ?_, h⟩
      rw [Ram.view, hread]
      rfl
    | error e =>
      rw [hread] at h
      cases h
      cases hp
  · cases h
    cases hp

/-- A write that leaves no trap was granted. -/
theorem writeWord_granted {v : Word} {next : Cpu → Dialogue Cpu}
    (h : (c.writeWord a v next).hold Ram.bus m = (c', m')) (hp : c'.pendingTrap = none) :
    a.isAligned ∧ (∃ old, m.view a = some old) ∧
      (next c).hold Ram.bus (m.write a v).2 = (c', m') := by
  unfold writeWord at h
  split at h
  · rename_i ha
    refine ⟨ha, ?_⟩
    simp only [Dialogue.hold, Ram.bus] at h
    unfold Ram.view Ram.read
    unfold Ram.write at h ⊢
    cases hoffset : m.offset a with
    | ok o =>
      rw [hoffset] at h
      exact ⟨⟨_, rfl⟩, h⟩
    | error e =>
      rw [hoffset] at h
      cases h
      cases hp
  · cases h
    cases hp

/-! ### Stores -/

/-- The bytes a store puts into memory. -/
def storedBytes (c : Cpu) (kind : StoreKind) (rd : Reg) : List UInt8 :=
  match kind with
  | .byte => [(c.get rd).byte 3]
  | .half => [(c.get rd).byte 2, (c.get rd).byte 3]
  | .word => ByteOrder.big.bytes (c.get rd)
  | .double => ByteOrder.big.bytes (c.get (evenOf rd)) ++ ByteOrder.big.bytes (c.get (oddOf rd))

/-- A whole word that is written. -/
theorem guest_writeWord {old : Word} (ha : a.isAligned) (hview : m.view a = some old) (w : Word) :
    (m.write a w).2.guest = patch m.guest a (ByteOrder.big.bytes w) := by
  have hlen := ByteOrder.big.length_bytes w
  refine Ram.guest_write_within hview ha (k := 0) rfl (by omega) fun i hi => ?_
  rw [if_pos (Nat.zero_le i), Nat.sub_zero, List.getElem?_eq_getElem (by omega)]
  rfl

/-- A word that is written back with one byte replaced. -/
theorem guest_writeByte {w : Word} (hview : m.view a.alignDown = some w) (b : UInt8) :
    (m.write a.alignDown (w.setByte a.lane b)).2.guest = patch m.guest a [b] := by
  have hlen := ByteOrder.big.length_bytes w
  refine Ram.guest_write_within hview (Word.isAligned_alignDown a) (Word.toNat_eq_lane a)
    (by simp only [List.length_singleton]; omega) fun i hi => ?_
  rw [Word.bytes_setByte, List.getElem?_set]
  by_cases he : a.lane.val = i
  · rw [if_pos he, if_pos (by omega), if_pos (by omega), he, Nat.sub_self]
    rfl
  · have hnone : (if a.lane.val ≤ i then [b][i - a.lane.val]? else none) = none := by
      split
      · exact List.getElem?_eq_none (by simp only [List.length_singleton]; omega)
      · rfl
    rw [if_neg he, hnone]
    rfl

/-- A word that is written back with the half at an even address replaced. -/
theorem guest_writeHalf {w : Word} (hview : m.view a.alignDown = some w) (heven : a.toNat % 2 = 0)
    (v : Word) : (m.write a.alignDown (w.setHalf (isUpperHalf a) v.toUInt16)).2.guest =
      patch m.guest a [v.byte 2, v.byte 3] := by
  have hA := Word.isAligned_alignDown a
  rcases Word.upper_or_lower heven with ⟨hupper, haddr⟩ | ⟨hlower, haddr⟩
  · rw [hupper, Word.setHalf_upper]
    refine Ram.guest_write_within hview hA (k := 0) haddr (by simp) fun i hi => ?_
    rw [Word.bytes_ofBytes]
    match i, hi with
    | 0, _ | 1, _ | 2, _ | 3, _ => rfl
  · rw [hlower, Word.setHalf_lower]
    refine Ram.guest_write_within hview hA (k := 2) haddr (by simp) fun i hi => ?_
    rw [Word.bytes_ofBytes]
    match i, hi with
    | 0, _ | 1, _ | 2, _ | 3, _ => rfl

/-- **A store that completes replaces its bytes**, and leaves the processor as it is. -/
theorem guest_store {kind : StoreKind} (heven : kind = .half → a.toNat % 2 = 0)
    (h : (c.store kind a rd).hold Ram.bus m = (c', m')) (hp : c'.pendingTrap = none) :
    c' = c ∧ m'.guest = patch m.guest a (c.storedBytes kind rd) := by
  unfold store at h
  cases kind with
  | word =>
    obtain ⟨ha, ⟨old, hold⟩, hdone⟩ := writeWord_granted h hp
    cases hdone
    exact ⟨rfl, guest_writeWord ha hold _⟩
  | byte =>
    obtain ⟨-, w, hw, hrest⟩ := readWord_granted h hp
    obtain ⟨-, -, hdone⟩ := writeWord_granted hrest hp
    cases hdone
    exact ⟨rfl, guest_writeByte hw _⟩
  | half =>
    obtain ⟨-, w, hw, hrest⟩ := readWord_granted h hp
    obtain ⟨-, -, hdone⟩ := writeWord_granted hrest hp
    cases hdone
    exact ⟨rfl, guest_writeHalf hw (heven rfl) _⟩
  | double =>
    obtain ⟨ha, ⟨high, hhigh⟩, hrest⟩ := writeWord_granted h hp
    obtain ⟨ha', ⟨low, hlow⟩, hdone⟩ := writeWord_granted hrest hp
    cases hdone
    refine ⟨rfl, ?_⟩
    let m₁ := (m.write a (c.get (evenOf rd))).2
    calc (m₁.write (a + 4) (c.get (oddOf rd))).2.guest
        = patch m₁.guest (a + 4) (ByteOrder.big.bytes (c.get (oddOf rd))) :=
          guest_writeWord ha' hlow _
      _ = patch (patch m.guest a (ByteOrder.big.bytes (c.get (evenOf rd)))) (a + 4)
            (ByteOrder.big.bytes (c.get (oddOf rd))) := by rw [guest_writeWord ha hhigh]
      _ = patch m.guest a (c.storedBytes .double rd) :=
          patch_append _ a _ _ (by rw [ByteOrder.length_bytes, ByteOrder.length_bytes]; decide)

/-! ### Loads -/

/-- How many bytes a load takes. -/
def loadWidth : LoadKind → Nat
  | .unsignedByte | .signedByte | .testAndSet => 1
  | .unsignedHalf | .signedHalf => 2
  | .word => 4
  | .double => 8

/-- What a load puts into the registers, of the bytes it took. -/
def receive (c : Cpu) (kind : LoadKind) (rd : Reg) (bs : List UInt8) : Cpu :=
  match kind with
  | .word | .unsignedByte | .unsignedHalf | .testAndSet => c.set rd (zeroExtended bs)
  | .signedByte | .signedHalf => c.set rd (signExtended bs)
  | .double =>
    (c.set (evenOf rd) (zeroExtended (bs.take 4))).set (oddOf rd) (zeroExtended (bs.drop 4))

/-- The registers show what a load took. -/
def Shows (c : Cpu) (kind : LoadKind) (rd : Reg) (bs : List UInt8) : Prop :=
  match kind with
  | .word | .unsignedByte | .unsignedHalf | .testAndSet => rd ≠ 0 → c.get rd = zeroExtended bs
  | .signedByte | .signedHalf => rd ≠ 0 → c.get rd = signExtended bs
  | .double => (evenOf rd ≠ 0 → c.get (evenOf rd) = zeroExtended (bs.take 4)) ∧
      c.get (oddOf rd) = zeroExtended (bs.drop 4)

theorem oddOf_ne (r : Reg) : oddOf r ≠ 0 ∧ oddOf r ≠ evenOf r := by
  have hlt := r.isLt
  have hodd : (oddOf r).val = (r.val / 2 * 2 + 1) % 32 := rfl
  have heven : (evenOf r).val = r.val / 2 * 2 % 32 := rfl
  rw [Ne, Ne, Fin.ext_iff, Fin.ext_iff, hodd, heven, Fin.val_zero]
  omega

/-- What is put into the registers is seen there. -/
theorem shows_receive (hs : c.Shaped) (kind : LoadKind) (rd : Reg) (bs : List UInt8) :
    (c.receive kind rd bs).Shows kind rd bs := by
  have hset : ∀ v, rd ≠ 0 → (c.set rd v).get rd = v := fun v hrd => by
    rw [get_set hs, if_pos ⟨hrd, rfl⟩]
  cases kind with
  | word | unsignedByte | unsignedHalf | testAndSet => exact hset _
  | signedByte | signedHalf => exact hset _
  | double =>
    obtain ⟨hzero, hne⟩ := oddOf_ne rd
    refine ⟨fun heven => ?_, ?_⟩
    · rw [receive, get_set (hs.set ..), if_neg fun h => hne h.2, get_set hs, if_pos ⟨heven, rfl⟩]
    · rw [receive, get_set (hs.set ..), if_pos ⟨hzero, rfl⟩]

/-- What a load leaves in memory: a test-and-set sets the byte it took. -/
def leftBehind (kind : LoadKind) (g : Word → Option UInt8) (a : Word) : Word → Option UInt8 :=
  match kind with
  | .testAndSet => patch g a [0xff]
  | _ => g

theorem stands_byte {w : Word} (hview : m.view a.alignDown = some w) :
    m.Stands a [w.byte a.lane] := by
  refine Ram.stands_within hview (Word.isAligned_alignDown a) (Word.toNat_eq_lane a)
    (by simp only [List.length_singleton]; omega) fun i hi => ?_
  obtain rfl : i = 0 := by simpa using hi
  match a.lane with
  | 0 | 1 | 2 | 3 => rfl

/-- The half at an even address is made of the bytes there. -/
theorem stands_half {w : Word} (hview : m.view a.alignDown = some w) (heven : a.toNat % 2 = 0) :
    ∃ bs, bs.length = 2 ∧ m.Stands a bs ∧ bigEndian bs = (w.half (isUpperHalf a)).toNat := by
  have hA := Word.isAligned_alignDown a
  rcases Word.upper_or_lower heven with ⟨hupper, haddr⟩ | ⟨hlower, haddr⟩
  · rw [hupper]
    refine ⟨[w.byte 0, w.byte 1], rfl, ?_, bigEndian_upper w⟩
    refine Ram.stands_within hview hA (k := 0) haddr (by simp) fun i hi => ?_
    match i, hi with
    | 0, _ | 1, _ => rfl
  · rw [hlower]
    refine ⟨[w.byte 2, w.byte 3], rfl, ?_, bigEndian_lower w⟩
    refine Ram.stands_within hview hA (k := 2) haddr (by simp) fun i hi => ?_
    match i, hi with
    | 0, _ | 1, _ => rfl

theorem stands_word {w : Word} (ha : a.isAligned) (hview : m.view a = some w) :
    m.Stands a (ByteOrder.big.bytes w) := by
  have hlen := ByteOrder.big.length_bytes w
  refine Ram.stands_within hview ha (k := 0) rfl (by omega) fun i hi => ?_
  rw [Nat.zero_add]

/-- **A load that completes takes the bytes at its address.** -/
theorem guest_load {kind : LoadKind} (heven : loadWidth kind = 2 → a.toNat % 2 = 0)
    (h : (c.load kind a rd).hold Ram.bus m = (c', m')) (hp : c'.pendingTrap = none) :
    ∃ bs, bs.length = loadWidth kind ∧ m.Stands a bs ∧ c' = c.receive kind rd bs ∧
      m'.guest = leftBehind kind m.guest a := by
  unfold load at h
  cases kind with
  | word =>
    obtain ⟨ha, w, hw, hdone⟩ := readWord_granted h hp
    cases hdone
    refine ⟨_, rfl, stands_word ha hw, ?_, rfl⟩
    rw [receive, zeroExtended_bytes]
  | unsignedByte =>
    obtain ⟨-, w, hw, hdone⟩ := readWord_granted h hp
    cases hdone
    refine ⟨_, rfl, stands_byte hw, ?_, rfl⟩
    rw [receive, zeroExtended_singleton]
  | signedByte =>
    obtain ⟨-, w, hw, hdone⟩ := readWord_granted h hp
    cases hdone
    refine ⟨_, rfl, stands_byte hw, ?_, rfl⟩
    rw [receive, signExtended_singleton]
  | unsignedHalf =>
    obtain ⟨-, w, hw, hdone⟩ := readWord_granted h hp
    cases hdone
    obtain ⟨bs, hlen, hstands, hvalue⟩ := stands_half hw (heven rfl)
    refine ⟨bs, hlen, hstands, ?_, rfl⟩
    rw [receive, zeroExtended_half hvalue]
  | signedHalf =>
    obtain ⟨-, w, hw, hdone⟩ := readWord_granted h hp
    cases hdone
    obtain ⟨bs, hlen, hstands, hvalue⟩ := stands_half hw (heven rfl)
    refine ⟨bs, hlen, hstands, ?_, rfl⟩
    rw [receive, signExtended_half hvalue hlen]
  | double =>
    obtain ⟨ha, high, hhigh, hrest⟩ := readWord_granted h hp
    obtain ⟨ha', low, hlow, hdone⟩ := readWord_granted hrest hp
    cases hdone
    refine ⟨ByteOrder.big.bytes high ++ ByteOrder.big.bytes low, rfl,
      (stands_word ha hhigh).append (stands_word ha' hlow), ?_, rfl⟩
    have htake : (ByteOrder.big.bytes high ++ ByteOrder.big.bytes low).take 4
        = ByteOrder.big.bytes high := rfl
    have hdrop : (ByteOrder.big.bytes high ++ ByteOrder.big.bytes low).drop 4
        = ByteOrder.big.bytes low := rfl
    rw [receive, htake, hdrop, zeroExtended_bytes, zeroExtended_bytes]
  | testAndSet =>
    obtain ⟨-, w, hw, hrest⟩ := readWord_granted h hp
    obtain ⟨-, -, hdone⟩ := writeWord_granted hrest hp
    cases hdone
    refine ⟨_, rfl, stands_byte hw, ?_, guest_writeByte hw 0xff⟩
    rw [receive, zeroExtended_singleton]

end Cpu

/-! ### Instructions that complete -/

/-- An instruction is carried out and completes. -/
def CarriesOut (c : Cpu) (m : Ram) (i : Instr) (c' : Cpu) (m' : Ram) : Prop :=
  ∃ word, (c.dispatch word i).hold Ram.bus m = ((.completed, c'), m')

section

variable {c c' : Cpu} {m m' : Ram} {i : Instr} {rd rs1 : Reg} {src : Operand}

/-- While a trap is pending, no step completes. -/
theorem noTrap_of_completed {word : Word} (hword : c.fetched Ram.bus m = some word)
    (hstep : c.step.hold Ram.bus m = ((.completed, c'), m')) : c.pendingTrap = none := by
  unfold Cpu.fetched at hword
  unfold Cpu.step at hstep
  split at hword
  · rename_i ha
    rw [if_pos ha] at hstep
    cases hp : c.pendingTrap with
    | none => rfl
    | some t =>
      simp only [Dialogue.hold, Ram.bus] at hword hstep
      cases hread : m.read c.pc with
      | error e =>
        rw [hread] at hword
        cases hword
      | ok w =>
        simp only [hread, hp, Dialogue.hold] at hstep
        cases hstep
  · cases hword

/-- A step that completes, and skips nothing, carries out its word. -/
theorem carriesOut_of_step {word : Word} (hword : c.fetched Ram.bus m = some word)
    (hannul : c.pendingAnnul = false)
    (hstep : c.step.hold Ram.bus m = ((.completed, c'), m')) :
    CarriesOut c.clearZero m (.ofWord word) c' m' := by
  rw [Cpu.step_dispatched (noTrap_of_completed hword hstep) hannul hword] at hstep
  exact ⟨word, hstep⟩

/-- An instruction that completes leaves no trap, and the processor moves on. -/
theorem CarriesOut.executed (h : CarriesOut c m i c' m') :
    ∃ c₁, (c.execute i).hold Ram.bus m = (c₁, m') ∧ c₁.pendingTrap = none ∧
      c' = c₁.advance := by
  obtain ⟨word, hdone⟩ := h
  unfold Cpu.dispatch at hdone
  split at hdone
  · rw [Dialogue.hold_bind] at hdone
    rcases hexec : (c.execute i).hold Ram.bus m with ⟨c₁, m₁⟩
    have hretire : c₁.retire.hold Ram.bus m₁ = ((.completed, c'), m') := by
      rw [← hdone]
      show _ = ((((c.execute i).hold Ram.bus m).1.retire).hold Ram.bus
        ((c.execute i).hold Ram.bus m).2)
      rw [hexec]
    unfold Cpu.retire at hretire
    split at hretire
    · cases hretire
    · rename_i hp
      cases hretire
      exact ⟨c₁, rfl, hp, rfl⟩
  · cases hdone

/-- A store that completes. -/
theorem CarriesOut.store {kind : StoreKind} (h : CarriesOut c m (.store kind rd rs1 src) c' m')
    (heven : kind = .half → (c.sum rs1 src).toNat % 2 = 0) :
    c' = c.advance ∧ m'.guest = patch m.guest (c.sum rs1 src) (c.storedBytes kind rd) := by
  obtain ⟨c₁, hexec, hp, rfl⟩ := h.executed
  obtain ⟨rfl, hguest⟩ := Cpu.guest_store heven hexec hp
  exact ⟨rfl, hguest⟩

/-- A load that completes. -/
theorem CarriesOut.load {kind : LoadKind} {alternate : Bool}
    (h : CarriesOut c m (.load kind alternate rs1 src rd) c' m')
    (heven : Cpu.loadWidth kind = 2 → (c.sum rs1 src).toNat % 2 = 0) :
    ∃ bs, bs.length = Cpu.loadWidth kind ∧ m.Stands (c.sum rs1 src) bs ∧
      c' = (c.receive kind rd bs).advance ∧ (c.Shaped → c'.Shows kind rd bs) ∧
      m'.guest = Cpu.leftBehind kind m.guest (c.sum rs1 src) := by
  obtain ⟨c₁, hexec, hp, rfl⟩ := h.executed
  obtain ⟨bs, hlen, hstands, rfl, hguest⟩ := Cpu.guest_load heven hexec hp
  exact ⟨bs, hlen, hstands, rfl, fun hs => Cpu.shows_receive hs kind rd bs, hguest⟩

end

/-! ### Rows of stores -/

/-- Stores that complete one after the other, whatever processors make them and whatever
they do in between, with the address and the bytes of each. -/
inductive Stores : Ram → List (Word × List UInt8) → Ram → Prop where
  | nil (m : Ram) : Stores m [] m
  | store {c c' : Cpu} {m m₁ m' : Ram} {kind : StoreKind} {rd rs1 : Reg} {src : Operand}
      {row : List (Word × List UInt8)} (h : CarriesOut c m (.store kind rd rs1 src) c' m₁)
      (heven : kind = .half → (c.sum rs1 src).toNat % 2 = 0) (rest : Stores m₁ row m') :
      Stores m ((c.sum rs1 src, c.storedBytes kind rd) :: row) m'
  | testAndSet {c c' : Cpu} {m m₁ m' : Ram} {alternate : Bool} {rd rs1 : Reg} {src : Operand}
      {row : List (Word × List UInt8)}
      (h : CarriesOut c m (.load .testAndSet alternate rs1 src rd) c' m₁)
      (rest : Stores m₁ row m') :
      Stores m ((c.sum rs1 src, [0xff]) :: row) m'

/-- The byte that was stored at an address last, if any was. -/
def lastStored (row : List (Word × List UInt8)) (b : Word) : Option UInt8 :=
  row.reverse.findSome? fun s => s.2[(b - s.1).toNat]?

theorem lastStored_cons (a : Word) (bs : List UInt8) (row : List (Word × List UInt8)) (b : Word) :
    lastStored ((a, bs) :: row) b = (lastStored row b).or bs[(b - a).toNat]? := by
  have hlast : [(a, bs)].findSome? (fun s => s.2[(b - s.1).toNat]?) = bs[(b - a).toNat]? := by
    rw [List.findSome?_cons]
    cases bs[(b - a).toNat]? <;> rfl
  unfold lastStored
  rw [List.reverse_cons, List.findSome?_append, hlast]

/-- **After a row of stores each byte is the one stored there last.** -/
theorem Stores.guest {m m' : Ram} {row : List (Word × List UInt8)} (h : Stores m row m')
    (b : Word) : m'.guest b = (lastStored row b).or (m.guest b) := by
  induction h with
  | nil m => rfl
  | store h heven rest ih => rw [ih, (h.store heven).2, lastStored_cons, Option.or_assoc, patch]
  | testAndSet h rest ih =>
    obtain ⟨bs, -, -, -, -, hguest⟩ := h.load (by rintro ⟨⟩)
    rw [ih, hguest, lastStored_cons, Option.or_assoc, Cpu.leftBehind, patch]

/-- **Memory is a row of bytes to its program**, in either byte order and at any base.
A store that completes, in a step or in any other state, changes nothing of the processor
but its program counters, and of the bytes those from its address on; they become the
bytes of its register or its pair, the most significant first. A load that completes
puts the number of the bytes at its address into its register or its pair, widened with
zeros or with the sign, and leaves the bytes as they are, but for a test-and-set, which
sets the one it took. So a load behind a row of stores takes at each address the byte
that was stored there last. Halves are at even addresses. -/
theorem guest_memory :
    (∀ {c c' : Cpu} {m m' : Ram} {word : Word}, c.fetched Ram.bus m = some word →
      c.pendingAnnul = false → c.step.hold Ram.bus m = ((.completed, c'), m') →
      CarriesOut c.clearZero m (.ofWord word) c' m') ∧
    (∀ {c c' : Cpu} {m m' : Ram} {kind : StoreKind} {rd rs1 : Reg} {src : Operand},
      CarriesOut c m (.store kind rd rs1 src) c' m' →
      (kind = .half → (c.sum rs1 src).toNat % 2 = 0) →
      c' = c.advance ∧ m'.guest = patch m.guest (c.sum rs1 src) (c.storedBytes kind rd)) ∧
    (∀ {c c' : Cpu} {m m' : Ram} {kind : LoadKind} {alternate : Bool} {rd rs1 : Reg}
      {src : Operand}, CarriesOut c m (.load kind alternate rs1 src rd) c' m' →
      (Cpu.loadWidth kind = 2 → (c.sum rs1 src).toNat % 2 = 0) →
      ∃ bs, bs.length = Cpu.loadWidth kind ∧ m.Stands (c.sum rs1 src) bs ∧
        c' = (c.receive kind rd bs).advance ∧ (c.Shaped → c'.Shows kind rd bs) ∧
        m'.guest = Cpu.leftBehind kind m.guest (c.sum rs1 src)) ∧
    (∀ {c c' : Cpu} {m₀ m m' : Ram} {row : List (Word × List UInt8)} {kind : LoadKind}
      {alternate : Bool} {rd rs1 : Reg} {src : Operand},
      Stores m₀ row m → CarriesOut c m (.load kind alternate rs1 src rd) c' m' →
      (Cpu.loadWidth kind = 2 → (c.sum rs1 src).toNat % 2 = 0) →
      ∃ bs, bs.length = Cpu.loadWidth kind ∧
        (∀ i < bs.length, bs[i]? = (lastStored row (c.sum rs1 src + UInt32.ofNat i)).or
          (m₀.guest (c.sum rs1 src + UInt32.ofNat i))) ∧
        c' = (c.receive kind rd bs).advance ∧ (c.Shaped → c'.Shows kind rd bs)) := by
  refine ⟨carriesOut_of_step, CarriesOut.store, CarriesOut.load, fun hrow hload heven => ?_⟩
  obtain ⟨bs, hlen, hstands, hc', hshows, -⟩ := hload.load heven
  refine ⟨bs, hlen, fun i hi => ?_, hc', hshows⟩
  rw [← hstands i hi, hrow.guest]

/-- A memory of 32 bytes in the little byte order, with the program `sth %g1, [%g0 + 18]`
and `ldsb [%g0 + 19], %g2`. -/
def halfStored : Ram where
  bytes := { size := 32
             pages := #[⟨#[0x12, 0x20, 0x30, 0xc2, 0x13, 0x20, 0x48, 0xc4, 0, 0, 0, 0, 0, 0, 0, 0,
               1, 2, 3, 4, 5, 6, 7, 8, 9, 10, 11, 12, 13, 14, 15, 16]⟩]
             size_le := by decide }
  base := 0
  order := .little

/-- A signed byte is taken out of the half that was stored before. -/
theorem guest_memory_half :
    let c := resetTwo.set 1 0x1234a5f6
    let c₁ := (c.step.hold Ram.bus halfStored).1.2
    let m₁ := (c.step.hold Ram.bus halfStored).2
    let c₂ := (c₁.step.hold Ram.bus m₁).1.2
    let m₂ := (c₁.step.hold Ram.bus m₁).2
    CarriesOut c.clearZero halfStored (.store .half 1 0 (.imm 18)) c₁ m₁ ∧
      CarriesOut c₁.clearZero m₁ (.load .signedByte false 0 (.imm 19) 2) c₂ m₂ ∧
      m₁.guest = patch halfStored.guest 18 [0xa5, 0xf6] ∧
      c₂ = (c₁.clearZero.set 2 0xfffffff6).advance := by
  intro c c₁ m₁ c₂ m₂
  obtain ⟨hstep, hstored, -, hlast⟩ := guest_memory
  have hstore : CarriesOut c.clearZero halfStored (.store .half 1 0 (.imm 18)) c₁ m₁ :=
    hstep (show c.fetched Ram.bus halfStored = some 0xc2302012 by decide) rfl
      (Prod.ext (Prod.ext (by decide) rfl) rfl)
  have hload : CarriesOut c₁.clearZero m₁ (.load .signedByte false 0 (.imm 19) 2) c₂ m₂ :=
    hstep (show c₁.fetched Ram.bus m₁ = some 0xc4482013 by decide) (by decide)
      (Prod.ext (Prod.ext (by decide) rfl) rfl)
  have hbytes : c.clearZero.storedBytes .half 1 = [0xa5, 0xf6] := by decide
  have hto : c.clearZero.sum 0 (.imm 18) = 18 := by decide
  have hfrom : c₁.clearZero.sum 0 (.imm 19) = 19 := by decide
  have heven : StoreKind.half = .half → (c.clearZero.sum 0 (.imm 18)).toNat % 2 = 0 :=
    fun _ => by decide
  refine ⟨hstore, hload, ?_, ?_⟩
  · rw [(hstored hstore heven).2, hto, hbytes]
  · obtain ⟨bs, hlen, hbs, hc₂, -⟩ :=
      hlast (.store hstore heven (.nil m₁)) hload (by rintro ⟨⟩)
    obtain ⟨b, rfl⟩ := List.length_eq_one_iff.mp hlen
    have hb := hbs 0 (by simp)
    rw [hto, hfrom, hbytes] at hb
    obtain rfl : b = 0xf6 := by simpa [lastStored] using hb
    have hvalue : signExtended [0xf6] = 0xfffffff6 := by decide
    exact hc₂.trans (by rw [Cpu.receive, hvalue])

end SparcIU
