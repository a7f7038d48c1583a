/-
# Laying a record over a processor

A record of `k` words replaces the first `k` words of the record of a processor and
leaves the others, wherever it ends; the place of register 0 becomes zero, and a set
annul flag is written as 1. Or it is refused, for the first of five reasons that
applies, and nothing changes (`record_overlay`).

Each field of the record stands for one place: it refuses the word, or it replaces
the word at that place and no other (`Cpu.FieldAt`). A row of fields at successive
places (`Cpu.FieldsFrom`) then lays a row of words over these places.

Key definitions: `Cpu.windowRefusal`, `Cpu.trapRefusal`, `Cpu.refusal`,
`Cpu.storedWord`, `Cpu.FieldAt`, `Cpu.FieldsFrom`.
Key theorems: `Cpu.fieldsFrom_recordFields`, `Cpu.overlay_eq`, `record_overlay`.
-/
import SparcIU.Proofs.Codes
import SparcIU.Proofs.Reachable

namespace SparcIU
namespace Cpu

/-! ### What is refused and what is stored -/

/-- Why the word of the state register is refused. -/
def windowRefusal (windows : Nat) (w : Word) : Option RecordError :=
  if w.toNat % 32 < windows then none else some (.badWindow (w.toNat % 32) windows)

/-- Why the word of the pending trap is refused. -/
def trapRefusal (w : Word) : Option RecordError :=
  if w = 0 ∨ w < 0x100 ∧ (TrapKind.ofCode w.toUInt8).isSome then none
  else some (.unknownTrap w)

/-- Why a record is refused, if it is: the first reason that applies. -/
def refusal (c : Cpu) (bytes : ByteArray) (order : ByteOrder) : Option RecordError :=
  let ws := wordsOf order bytes.data.toList
  [if bytes.size = 0 then some .empty else none,
   if bytes.size % 4 ≠ 0 then some (.misaligned bytes.size) else none,
   if c.recordLength < bytes.size then some (.tooLong bytes.size c.recordLength) else none,
   ws[c.regs.size + 2]?.bind (windowRefusal c.config.windows.toNat),
   ws[c.regs.size + 6]?.bind trapRefusal].findSome? id

/-- What is stored of the word at place `k` of a record with `n` registers. -/
def storedWord (n k : Nat) (w : Word) : Word :=
  if k = 2 then 0 else if k = n + 7 ∧ w ≠ 0 then 1 else w

/-! ### Fields and their places -/

/-- Why a word is refused at place `k` of a record with `n` registers. -/
def refusalAt (n windows k : Nat) (w : Word) : Option RecordError :=
  if k = n + 2 then windowRefusal windows w else if k = n + 6 then trapRefusal w else none

/-- What a field leaves at place `k`; register 0 is cleared later. -/
def laidWord (n k : Nat) (w : Word) : Word := if k = n + 7 ∧ w ≠ 0 then 1 else w

theorem refusalAt_psr (n windows : Nat) (w : Word) :
    refusalAt n windows (n + 2) w = windowRefusal windows w := if_pos rfl

theorem refusalAt_trap (n windows : Nat) (w : Word) :
    refusalAt n windows (n + 6) w = trapRefusal w := by
  rw [refusalAt, if_neg (by omega), if_pos rfl]

/-- No other word is refused. -/
theorem refusalAt_of_ne {n windows k : Nat} (h2 : k ≠ n + 2) (h6 : k ≠ n + 6) (w : Word) :
    refusalAt n windows k w = none := by
  rw [refusalAt, if_neg h2, if_neg h6]

/-- All words but that of the annul flag are kept as they are. -/
theorem laidWord_of_ne {n k : Nat} (h7 : k ≠ n + 7) (w : Word) : laidWord n k w = w :=
  if_neg fun h => h7 h.1

/-- The field stands for place `k` of a record with `n` registers. -/
structure FieldAt (n k : Nat) (f : RecordField) : Prop where
  refuses : ∀ {c : Cpu} {w e}, refusalAt n c.config.windows.toNat k w = some e → f c w = .error e
  lays : ∀ {c : Cpu} {w}, c.regs.size = n → refusalAt n c.config.windows.toNat k w = none →
    ∃ c', f c w = .ok c' ∧ c'.config = c.config ∧
      c'.recordWords = c.recordWords.set k (laidWord n k w)

/-- The fields stand for the places from `j` on. -/
def FieldsFrom (n : Nat) : Nat → List RecordField → Prop
  | _, [] => True
  | j, f :: fs => FieldAt n j f ∧ FieldsFrom n (j + 1) fs

variable {n j : Nat}

theorem FieldsFrom.append {fs gs : List RecordField} (hf : FieldsFrom n j fs)
    (hg : FieldsFrom n (j + fs.length) gs) : FieldsFrom n j (fs ++ gs) := by
  induction fs generalizing j with
  | nil => exact hg
  | cons f fs ih =>
    refine ⟨hf.1, ih hf.2 ?_⟩
    rw [Nat.add_right_comm]
    exact hg

/-- A field that takes every word, at a place where no word is refused. -/
theorem FieldAt.of_total {k : Nat} {f : Cpu → Word → Cpu} (h2 : k ≠ n + 2) (h6 : k ≠ n + 6)
    (hconfig : ∀ c w, (f c w).config = c.config)
    (hwords : ∀ c w, c.regs.size = n →
      (f c w).recordWords = c.recordWords.set k (laidWord n k w)) :
    FieldAt n k fun c w => .ok (f c w) := by
  constructor
  · intro c w e h
    rw [refusalAt_of_ne h2 h6] at h
    cases h
  · intro c w hn _
    exact ⟨_, rfl, hconfig c w, hwords c w hn⟩

/-- A field that takes every word and keeps it. -/
theorem FieldAt.of_kept {k : Nat} {f : Cpu → Word → Cpu} (h2 : k ≠ n + 2) (h6 : k ≠ n + 6)
    (h7 : k ≠ n + 7) (hconfig : ∀ c w, (f c w).config = c.config)
    (hwords : ∀ c w, c.regs.size = n → (f c w).recordWords = c.recordWords.set k w) :
    FieldAt n k fun c w => .ok (f c w) := by
  refine .of_total h2 h6 hconfig fun c w hn => ?_
  rw [laidWord_of_ne h7, hwords c w hn]

/-- A change of one field behind the registers. -/
theorem recordWords_set_tail {c c' : Cpu} (hn : c.regs.size = n) {k : Nat} {w : Word}
    (hhead : c'.recordHead = c.recordHead) (htail : c'.recordTail = c.recordTail.set k w) :
    c'.recordWords = c.recordWords.set (n + 2 + k) w := by
  have hlen : c.recordHead.length = n + 2 := by simp [recordHead, hn]
  rw [recordWords_eq, recordWords_eq, List.set_append_right _ _ (by omega), hlen,
    Nat.add_sub_cancel_left, hhead, htail]

theorem fieldAt_register {i : Nat} (hi : i < n) :
    FieldAt n (2 + i) fun c w => .ok { c with regs := c.regs.setIfInBounds i w } := by
  refine .of_kept (by omega) (by omega) (by omega) (fun _ _ => rfl) ?_
  intro c w hn
  have hlen : i < c.regs.toList.length := by rw [Array.length_toList, hn]; exact hi
  unfold recordWords
  rw [Nat.add_comm, List.cons_append, List.cons_append, List.cons_append, List.cons_append,
    List.set_cons_succ, List.set_cons_succ, List.set_append_left _ _ hlen,
    Array.toList_setIfInBounds]

theorem fieldAt_psr : FieldAt n (n + 2) psrField := by
  have hcwp : ∀ w, (Psr.ofBits w).cwp.val = w.toNat % 32 := fun w => rfl
  constructor
  · intro c w e h
    rw [refusalAt_psr, windowRefusal] at h
    split at h
    · cases h
    · rename_i hge
      cases h
      unfold psrField
      simp only [hcwp]
      rw [if_neg hge]
  · intro c w hn h
    rw [refusalAt_psr, windowRefusal] at h
    split at h
    · rename_i hlt
      refine ⟨{ c with psr := Psr.ofBits w }, ?_, rfl, ?_⟩
      · unfold psrField
        simp only [hcwp]
        rw [if_pos hlt]
      · rw [laidWord_of_ne (by omega)]
        refine recordWords_set_tail hn rfl (k := 0) ?_
        simp only [recordTail, Psr.toBits_ofBits, List.set_cons_zero]
    · cases h

theorem fieldAt_trap : FieldAt n (n + 6) trapField := by
  constructor
  · intro c w e h
    rw [refusalAt_trap, trapRefusal] at h
    split at h
    · cases h
    · rename_i hbad
      cases h
      unfold trapField
      split
      · exact absurd (.inl ‹w = 0›) hbad
      · split
        · rfl
        · rename_i hlt
          split
          · rfl
          · rename_i t ht
            exact absurd (.inr ⟨UInt32.not_le.mp hlt, ht ▸ rfl⟩) hbad
  · intro c w hn h
    rw [refusalAt_trap, trapRefusal] at h
    have hgood : w = 0 ∨ w < 0x100 ∧ (TrapKind.ofCode w.toUInt8).isSome := by
      refine Decidable.of_not_not fun hbad => ?_
      rw [if_neg hbad] at h
      cases h
    rw [laidWord_of_ne (by omega)]
    unfold trapField
    rcases hgood with rfl | ⟨hlt, hsome⟩
    · exact ⟨_, rfl, rfl, recordWords_set_tail hn rfl (k := 4) rfl⟩
    · obtain ⟨t, ht⟩ := Option.isSome_iff_exists.mp hsome
      have hcode : trapWord (some t) = w := by
        unfold trapWord
        simp only
        rw [TrapKind.code_of_ofCode ht, ← UInt32.toNat_inj, UInt8.toNat_toUInt32,
          UInt32.toNat_toUInt8, Nat.mod_eq_of_lt]
        exact UInt32.lt_iff_toNat_lt.mp hlt
      have hw : w ≠ 0 := by
        rintro rfl
        cases ht
      rw [if_neg hw, if_neg (UInt32.not_le.mpr hlt), ht]
      refine ⟨_, rfl, rfl, ?_⟩
      refine recordWords_set_tail hn rfl (k := 4) ?_
      simp only [recordTail, hcode, List.set_cons_succ, List.set_cons_zero]

theorem fieldAt_annul : FieldAt n (n + 7) fun c w => .ok { c with pendingAnnul := w != 0 } := by
  refine .of_total (by omega) (by omega) (fun _ _ => rfl) ?_
  intro c w hn
  refine recordWords_set_tail hn rfl (k := 5) ?_
  have hword : (if (w != 0) = true then (1 : Word) else 0) = laidWord n (n + 7) w := by
    unfold laidWord
    by_cases hw : w = 0
    · rw [if_neg (by simp [hw]), if_neg fun h => h.2 hw, hw]
    · rw [if_pos (bne_iff_ne.mpr hw), if_pos ⟨rfl, hw⟩]
  simp only [recordTail, hword, List.set_cons_succ, List.set_cons_zero]

theorem fieldAt_target : FieldAt n (n + 8) fun c w =>
    .ok { c with branchTarget := if w = noTarget then none else some w } := by
  refine .of_kept (by omega) (by omega) (by omega) (fun _ _ => rfl) ?_
  intro c w hn
  refine recordWords_set_tail hn rfl (k := 6) ?_
  have hword : (if w = noTarget then none else some w).getD noTarget = w := by
    split
    · exact Eq.symm ‹w = noTarget›
    · rfl
  simp only [recordTail, hword, List.set_cons_succ, List.set_cons_zero]

/-- **The fields of a record stand for its places, one after the other.** -/
theorem fieldsFrom_recordFields (n : Nat) : FieldsFrom n 0 (recordFields n) := by
  have hpc : FieldAt n 0 fun c w => .ok { c with pc := w } :=
    .of_kept (by omega) (by omega) (by omega) (fun _ _ => rfl) fun _ _ _ => rfl
  have hnpc : FieldAt n 1 fun c w => .ok { c with npc := w } :=
    .of_kept (by omega) (by omega) (by omega) (fun _ _ => rfl) fun _ _ _ => rfl
  have hwim : FieldAt n (n + 3) fun c w => .ok { c with wim := w } :=
    .of_kept (by omega) (by omega) (by omega) (fun _ _ => rfl) fun _ _ hn =>
      recordWords_set_tail hn rfl (k := 1) rfl
  have htbr : FieldAt n (n + 4) fun c w => .ok { c with tbr := w } :=
    .of_kept (by omega) (by omega) (by omega) (fun _ _ => rfl) fun _ _ hn =>
      recordWords_set_tail hn rfl (k := 2) rfl
  have hy : FieldAt n (n + 5) fun c w => .ok { c with y := w } :=
    .of_kept (by omega) (by omega) (by omega) (fun _ _ => rfl) fun _ _ hn =>
      recordWords_set_tail hn rfl (k := 3) rfl
  -- the registers, by the number of them that are laid
  have hregs : ∀ m ≤ n, FieldsFrom n 2 (registerFields m) := by
    intro m
    unfold registerFields
    induction m with
    | zero => exact fun _ => trivial
    | succ m ih =>
      intro hm
      rw [List.range_succ, List.map_append]
      refine (ih (by omega)).append ⟨?_, trivial⟩
      rw [List.length_map, List.length_range]
      exact fieldAt_register hm
  have htail : FieldsFrom n (n + 2) tailFields :=
    ⟨fieldAt_psr, hwim, htbr, hy, fieldAt_trap, fieldAt_annul, fieldAt_target, trivial⟩
  rw [recordFields_eq]
  refine .append ⟨hpc, hnpc, hregs n (Nat.le_refl n)⟩ ?_
  rw [List.length_cons, List.length_cons, length_registerFields, Nat.zero_add]
  exact htail

/-! ### Rows of words -/

/-- The word for place `k` in a row that begins at place `j`. -/
def wordFrom (j k : Nat) (ws : List Word) : Option Word := if j ≤ k then ws[k - j]? else none

theorem wordFrom_nil (j k : Nat) : wordFrom j k [] = none := by
  unfold wordFrom
  split <;> rfl

theorem wordFrom_cons (j k : Nat) (w : Word) (ws : List Word) :
    wordFrom j k (w :: ws) = if k = j then some w else wordFrom (j + 1) k ws := by
  unfold wordFrom
  by_cases he : k = j
  · rw [if_pos he, if_pos (by omega), he, Nat.sub_self]
    rfl
  · rw [if_neg he]
    by_cases hlt : j < k
    · rw [if_pos (by omega), if_pos (by omega), show k - j = k - (j + 1) + 1 by omega]
      rfl
    · rw [if_neg (by omega), if_neg (by omega)]

/-- Why a row from place `j` on is refused: the state register comes first. -/
def refusalFrom (n windows j : Nat) (ws : List Word) : Option RecordError :=
  ((wordFrom j (n + 2) ws).bind (windowRefusal windows)).or
    ((wordFrom j (n + 6) ws).bind trapRefusal)

theorem refusalFrom_cons (windows j : Nat) (w : Word) (ws : List Word) :
    refusalFrom n windows j (w :: ws) =
      (refusalAt n windows j w).or (refusalFrom n windows (j + 1) ws) := by
  unfold refusalFrom refusalAt
  rw [wordFrom_cons, wordFrom_cons]
  by_cases h2 : n + 2 = j
  · rw [if_pos h2, if_pos h2.symm, if_neg (by omega)]
    have hpast : wordFrom (j + 1) (n + 2) ws = none := if_neg (by omega)
    rw [hpast]
    rfl
  · rw [if_neg h2, if_neg (Ne.symm h2)]
    by_cases h6 : n + 6 = j
    · have hpast2 : wordFrom (j + 1) (n + 2) ws = none := if_neg (by omega)
      have hpast6 : wordFrom (j + 1) (n + 6) ws = none := if_neg (by omega)
      rw [if_pos h6, if_pos h6.symm, hpast2, hpast6]
      simp
    · rw [if_neg h6, if_neg (Ne.symm h6)]
      rfl

/-- **A row of words laid over a processor.** It is refused as a whole, or its words
stand at their places and all others are kept. -/
theorem overlay_eq {fs : List RecordField} (hf : FieldsFrom n j fs) {ws : List Word}
    (hws : ws.length ≤ fs.length) {c : Cpu} (hn : c.regs.size = n) (hj : j + fs.length ≤ n + 9) :
    (∀ e, refusalFrom n c.config.windows.toNat j ws = some e → overlay fs ws c = .error e) ∧
    (refusalFrom n c.config.windows.toNat j ws = none → ∃ c', overlay fs ws c = .ok c' ∧
      c'.config = c.config ∧ c'.regs.size = n ∧
      ∀ k, c'.recordWords[k]? = ((wordFrom j k ws).map (laidWord n k)).or c.recordWords[k]?) := by
  induction ws generalizing j fs c with
  | nil =>
    refine ⟨fun e h => ?_, fun _ => ⟨c, ?_, rfl, hn, fun k => ?_⟩⟩
    · rw [refusalFrom, wordFrom_nil, wordFrom_nil] at h
      cases h
    · cases fs <;> rfl
    · rw [wordFrom_nil]
      rfl
  | cons w ws ih =>
    cases fs with
    | nil => cases hws
    | cons f fs =>
      rw [refusalFrom_cons]
      simp only [List.length_cons] at hws hj
      cases hat : refusalAt n c.config.windows.toNat j w with
      | some e =>
        have hrefused := hf.1.refuses hat
        refine ⟨fun e' h => ?_, fun h => by cases h⟩
        cases h
        rw [overlay, hrefused]
      | none =>
        obtain ⟨c₁, hc₁, hconfig₁, hwords₁⟩ := hf.1.lays hn hat
        have hn₁ : c₁.regs.size = n := by
          have hlen := congrArg List.length hwords₁
          rw [List.length_set, length_recordWords, length_recordWords] at hlen
          omega
        have hrest := ih hf.2 (by omega) hn₁ (by omega)
        rw [hconfig₁] at hrest
        have hstep : overlay (f :: fs) (w :: ws) c = overlay fs ws c₁ := by rw [overlay, hc₁]
        rw [hstep]
        refine ⟨hrest.1, fun h => ?_⟩
        obtain ⟨c', hc', hconfig', hn', hwords'⟩ := hrest.2 h
        refine ⟨c', hc', hconfig', hn', fun k => ?_⟩
        rw [hwords' k, hwords₁, List.getElem?_set, wordFrom_cons]
        by_cases he : k = j
        · have hpast : wordFrom (j + 1) k ws = none := if_neg (by omega)
          have hlt : j < c.recordWords.length := by rw [length_recordWords]; omega
          rw [if_pos he, if_pos he.symm, if_pos hlt, hpast, he]
          rfl
        · rw [if_neg he, if_neg (Ne.symm he)]

/-! ### Records -/

theorem getElem?_recordWords_two (c : Cpu) (hpos : 0 < c.regs.size) :
    c.recordWords[2]? = c.regs[0]? := by
  rw [recordWords_eq, recordHead, List.cons_append, List.cons_append, List.getElem?_cons_succ,
    List.getElem?_cons_succ, List.getElem?_append_left (by rw [Array.length_toList]; exact hpos),
    Array.getElem?_toList]

theorem clearZero_recordWords (c : Cpu) (hpos : 0 < c.regs.size) :
    c.clearZero.recordWords = c.recordWords.set 2 0 := by
  have hlen : 0 < c.regs.toList.length := by rw [Array.length_toList]; exact hpos
  rw [recordWords_eq, recordWords_eq, recordHead, recordHead, List.cons_append, List.cons_append,
    List.cons_append, List.cons_append, List.set_cons_succ, List.set_cons_succ,
    List.set_append_left _ _ hlen, ← Array.toList_setIfInBounds]
  rfl

/-- The words of a record laid over those of a processor. -/
theorem clearZero_overlaid {c c' : Cpu} {ws : List Word} (hzero : c.regs[0]? = some 0)
    (hsize : c'.regs.size = c.regs.size)
    (hwords : ∀ k, c'.recordWords[k]? =
      (ws[k]?.map (laidWord c.regs.size k)).or c.recordWords[k]?) :
    c'.clearZero.recordWords =
      ws.mapIdx (storedWord c.regs.size) ++ c.recordWords.drop ws.length := by
  have hpos : 0 < c.regs.size := by
    obtain ⟨h, -⟩ := Array.getElem?_eq_some_iff.mp hzero
    exact h
  have htwo := getElem?_recordWords_two c hpos
  have hlen : 2 < c'.recordWords.length := by rw [length_recordWords]; omega
  apply List.ext_getElem?
  intro k
  rw [clearZero_recordWords c' (by omega), List.getElem?_set, List.getElem?_append,
    List.length_mapIdx, List.getElem?_mapIdx, List.getElem?_drop]
  by_cases h2 : 2 = k
  · subst h2
    rw [if_pos rfl, if_pos hlen]
    split
    · rename_i hk
      rw [List.getElem?_eq_getElem hk]
      rfl
    · rename_i hk
      rw [show ws.length + (2 - ws.length) = 2 by omega, htwo, hzero]
  · have hstored : storedWord c.regs.size k = laidWord c.regs.size k := by
      funext w
      exact if_neg (Ne.symm h2)
    rw [if_neg h2, hwords, hstored]
    split
    · rename_i hk
      rw [List.getElem?_eq_getElem hk]
      rfl
    · rename_i hk
      rw [List.getElem?_eq_none (by omega), show ws.length + (k - ws.length) = k by omega]
      rfl

/-- A record is refused for the first reason that applies, or its words are laid
over the processor. -/
theorem loadRecord_eq {c : Cpu} (hzero : c.regs[0]? = some 0) (bytes : ByteArray)
    (order : ByteOrder) :
    (∀ e, c.refusal bytes order = some e → c.loadRecord bytes order = .error e) ∧
    (c.refusal bytes order = none → ∃ c', c.loadRecord bytes order = .ok c' ∧
      c'.config = c.config ∧ c'.regs.size = c.regs.size ∧
      c'.recordWords = (wordsOf order bytes.data.toList).mapIdx (storedWord c.regs.size) ++
        c.recordWords.drop (bytes.size / 4)) := by
  have hlen : (wordsOf order bytes.data.toList).length = bytes.size / 4 := by
    rw [length_wordsOf, Array.length_toList]
    rfl
  unfold refusal loadRecord
  by_cases h0 : bytes.size = 0
  · simp [h0]
  by_cases h4 : bytes.size % 4 ≠ 0
  · simp [h0, h4]
  by_cases hlong : c.recordLength < bytes.size
  · simp [h0, h4, hlong]
  have hfields : (recordFields c.regs.size).length = c.regs.size + 9 := by
    simp [recordFields]
  have hfits : (wordsOf order bytes.data.toList).length ≤ (recordFields c.regs.size).length := by
    unfold recordLength at hlong
    omega
  have hlaid := overlay_eq (fieldsFrom_recordFields c.regs.size) hfits (c := c) rfl (by omega)
  have hrefusal : ∀ r₁ r₂ : Option RecordError,
      [none, none, none, r₁, r₂].findSome? id = r₁.or r₂ := by
    rintro (- | e) (- | e) <;> rfl
  simp only [if_neg h0, if_neg h4, if_neg hlong, hrefusal]
  refine ⟨fun e h => ?_, fun h => ?_⟩
  · rw [hlaid.1 e h]
  · obtain ⟨c', hc', hconfig, hsize, hwords⟩ := hlaid.2 h
    refine ⟨c'.clearZero, by rw [hc'], hconfig, ?_, ?_⟩
    · rw [← hsize]
      exact Array.size_setIfInBounds
    · rw [← hlen]
      exact clearZero_overlaid hzero hsize hwords

end Cpu

/-- **A record is laid over the processor exactly, or nothing happens.** Loading fails
for the first reason that applies: the record is empty, is not a whole number of words,
is longer than a complete one, has a window in its state register that does not exist,
or has a pending trap that is neither 0 nor the number of a trap; the host's processor
and device are then as they were. Otherwise the words of the processor's record are the
given ones, with zero for register 0 and 1 for a set annul flag, and behind them those
of its record before; the configuration is the same. -/
theorem record_overlay {c : Cpu} (hzero : c.regs[0]? = some 0) (bytes : ByteArray)
    (order : ByteOrder) :
    (∀ e, c.loadRecord bytes order = .error e ↔ c.refusal bytes order = some e) ∧
    (∀ {σ : Type} (bus : Bus σ) (s : σ), (c.refusal bytes order).isSome →
      HostCall.apply bus (.loadRecord bytes order) (c, s) = (c, s)) ∧
    (c.refusal bytes order = none → ∃ c', c.loadRecord bytes order = .ok c' ∧
      c'.config = c.config ∧ ∀ o, (c'.toRecord o).size = c.recordLength ∧
        Cpu.wordsOf o (c'.toRecord o).data.toList =
          (Cpu.wordsOf order bytes.data.toList).mapIdx (Cpu.storedWord c.regs.size) ++
            (Cpu.wordsOf o (c.toRecord o).data.toList).drop (bytes.size / 4)) := by
  obtain ⟨hrefused, hlaid⟩ := Cpu.loadRecord_eq hzero bytes order
  refine ⟨fun e => ⟨fun h => ?_, hrefused e⟩, fun bus s h => ?_, fun h => ?_⟩
  · cases hr : c.refusal bytes order with
    | none =>
      obtain ⟨c', hc', -⟩ := hlaid hr
      rw [hc'] at h
      cases h
    | some e' =>
      rw [hrefused e' hr] at h
      cases h
      rfl
  · obtain ⟨e, he⟩ := Option.isSome_iff_exists.mp h
    simp only [HostCall.apply, hrefused e he]
  · obtain ⟨c', hc', hconfig, hsize, hwords⟩ := hlaid h
    refine ⟨c', hc', hconfig, fun o => ⟨?_, ?_⟩⟩
    · rw [Cpu.size_toRecord, Cpu.recordLength, Cpu.recordLength, hsize]
    · rw [Cpu.wordsOf_toRecord, Cpu.wordsOf_toRecord, hwords]

/-- A record that ends behind the first globals, with something in register 0. -/
theorem record_overlay_four_words :
    resetTwo.regs[0]? = some 0 ∧
    let bytes : ByteArray := ⟨#[0, 0, 0, 0x80, 0, 0, 0, 0x84, 0, 0, 0, 7, 0, 0, 0, 5]⟩
    ∃ c', resetTwo.loadRecord bytes .big = .ok c' ∧ c'.config = resetTwo.config ∧
      Cpu.wordsOf .little (c'.toRecord .little).data.toList =
        [0x80, 0x84, 0, 5] ++ resetTwo.recordWords.drop 4 := by
  refine ⟨rfl, ?_⟩
  intro bytes
  obtain ⟨c', hc', hconfig, hwords⟩ :=
    (record_overlay (c := resetTwo) rfl bytes .big).2.2 (by decide)
  refine ⟨c', hc', hconfig, ?_⟩
  have hstored : (Cpu.wordsOf .big bytes.data.toList).mapIdx (Cpu.storedWord 40)
      = [0x80, 0x84, 0, 5] := by decide
  have hfour : bytes.size / 4 = 4 := by decide
  have hforty : resetTwo.regs.size = 40 := rfl
  rw [(hwords .little).2, Cpu.wordsOf_toRecord, hforty, hstored, hfour]

end SparcIU
