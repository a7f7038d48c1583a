/-
# The words that stop the machine

A step stops the machine for good at the words that are listed as data, with
`.word`, and at loads in register form that name an address space, whatever the mode
and the registers hold. Both sets are given by the fields of the word. At any other
word the step completes or traps, and no check on the way fails (`abort_set`).

Key definitions: `IsWordLine`, `Word.IsData`, `Word.LoadsAlternate`.
Key theorems: `isWordLine_iff`, `Instr.unknown_ofWord`, `Instr.implemented_ofWord`,
`abort_set`.
-/
import SparcIU.Proofs.ChecksHold
import SparcIU.Proofs.Footprint

namespace SparcIU

/-! ### Lines of data -/

/-- A line that lists a word as data. -/
def IsWordLine (line : String) : Prop := ∃ rest, line = ".word " ++ rest

/-- A text that does not start with a dot. -/
def startsPlain (s : String) : Bool := s.toList.head?.any (· != '.')

theorem startsPlain_append {a : String} (h : startsPlain a) (b : String) : startsPlain (a ++ b) := by
  unfold startsPlain at *
  rw [String.toList_append]
  cases ha : a.toList with
  | nil =>
    rw [ha] at h
    cases h
  | cons ch rest =>
    rw [ha] at h
    exact h

theorem not_isWordLine {line : String} (h : startsPlain line) : ¬ IsWordLine line := by
  rintro ⟨rest, rfl⟩
  unfold startsPlain at h
  rw [String.toList_append] at h
  cases h

/-- Only data has a mnemonic with a dot. -/
theorem startsPlain_mnemonic (target : Word → String) {i : Instr} (hi : ∀ w, i ≠ .unknown w) :
    startsPlain (i.assembly target).mnemonic := by
  unfold Instr.assembly
  split
  case h_24 w => exact absurd rfl (hi w)
  case h_2 => split <;> (dsimp only; decide)
  all_goals dsimp only
  case h_3 => exact startsPlain_append (startsPlain_append (by decide) _) _
  case h_7 op _ _ _ _ _ _ => exact startsPlain_append (by cases op <;> decide) _
  case h_8 op _ _ _ => cases op <;> decide
  case h_9 signed _ _ _ _ | h_10 signed _ _ _ _ =>
    exact startsPlain_append (startsPlain_append (by cases signed <;> decide) _) _
  case h_18 => exact startsPlain_append (by decide) _
  case h_22 kind _ _ _ _ => cases kind <;> decide
  case h_23 kind _ _ _ => cases kind <;> decide
  all_goals decide

/-- The line of an instruction is one of data only if it is not known. -/
theorem isWordLine_iff (target : Word → String) (i : Instr) :
    IsWordLine (i.assembly target).text ↔ ∃ w, i = .unknown w := by
  constructor
  · intro hline
    refine Classical.byContradiction fun hnot => ?_
    have hplain := startsPlain_mnemonic target fun w hw => hnot ⟨w, hw⟩
    refine not_isWordLine ?_ hline
    unfold Assembly.text
    split
    · exact hplain
    · exact startsPlain_append (startsPlain_append hplain _) _
  · rintro ⟨w, rfl⟩
    refine ⟨Numeral.hexPadded 8 w.toNat, ?_⟩
    show ".word" ++ " " ++ String.intercalate ", " [Numeral.hexPadded 8 w.toNat] = _
    rw [String.intercalate_singleton]
    rfl

/-! ### Words that are not implemented -/

/-- No operation has the number in this word. Of the ancillary state registers only
`%y` can be read and written. -/
def Word.IsData (w : Word) : Prop :=
  w.op = 0 ∧ w.op2 ∉ [0, 2, 4] ∨
    w.op = 2 ∧
      (w.op3 ∉ [0x00, 0x01, 0x02, 0x03, 0x04, 0x05, 0x06, 0x0a, 0x0b, 0x0e, 0x0f, 0x10, 0x11, 0x12, 0x13,
          0x14, 0x1a, 0x1b, 0x1e, 0x1f, 0x24, 0x25, 0x26, 0x27, 0x28, 0x29, 0x2a, 0x2b, 0x30, 0x31, 0x32,
          0x33, 0x38, 0x39, 0x3a, 0x3c, 0x3d] ∨
        w.op3 = 0x28 ∧ w.rs1 ≠ 0 ∨ w.op3 = 0x30 ∧ w.rd ≠ 0) ∨
    w.op = 3 ∧ w.op3 ∉ [0x00, 0x01, 0x02, 0x03, 0x04, 0x05, 0x06, 0x07, 0x09, 0x0a, 0x0d]

/-- A load in register form with an address space that is not zero. -/
def Word.LoadsAlternate (w : Word) : Prop :=
  w.memory [0x00, 0x01, 0x02, 0x03, 0x09, 0x0a, 0x0d] ∧ w.immediate = false ∧ w.asi ≠ 0

instance (w : Word) : Decidable w.LoadsAlternate :=
  inferInstanceAs (Decidable ((w.op = 3 ∧ w.op3 ∈ [0x00, 0x01, 0x02, 0x03, 0x09, 0x0a, 0x0d]) ∧
    w.immediate = false ∧ w.asi ≠ 0))

namespace Instr

variable {w : Word}

theorem unknown_ofFormat2 (h : w.op = 0) : (∃ v, ofFormat2 w = .unknown v) ↔ w.IsData := by
  unfold ofFormat2
  split
  all_goals simp_all [Word.IsData]

theorem unknown_ofFormat3 (h : w.op = 2) : (∃ v, ofFormat3 w = .unknown v) ↔ w.IsData := by
  unfold ofFormat3
  split
  all_goals try split
  all_goals simp_all [Word.IsData]

theorem unknown_ofMemory (h : w.op = 3) : (∃ v, ofMemory w = .unknown v) ↔ w.IsData := by
  unfold ofMemory
  split
  all_goals simp_all [Word.IsData]

/-- The decoder knows the words that are not data. -/
theorem unknown_ofWord (w : Word) : (∃ v, ofWord w = .unknown v) ↔ w.IsData := by
  have hlt := w.op_lt
  unfold ofWord
  split
  · exact unknown_ofFormat2 ‹_›
  · simp [Word.IsData, *]
  · exact unknown_ofFormat3 ‹_›
  · rename_i h0 h1 h2
    have hnot : ¬ w.op = 0 ∧ ¬ w.op = 1 ∧ ¬ w.op = 2 := ⟨h0, h1, h2⟩
    exact unknown_ofMemory (by omega)

theorem implemented_ofMemory (h : w.op = 3) : (ofMemory w).implemented = false ↔
    (∃ v, ofMemory w = .unknown v) ∨ w.LoadsAlternate := by
  unfold ofMemory
  split
  all_goals simp [implemented, Word.LoadsAlternate, Word.memory, Word.alternate, *]

/-- Unknown words and alternate loads are not implemented, and no others. -/
theorem implemented_ofWord (w : Word) : (ofWord w).implemented = false ↔
    (∃ v, ofWord w = .unknown v) ∨ w.LoadsAlternate := by
  have hlt := w.op_lt
  have hother : w.op ≠ 3 → ¬ w.LoadsAlternate := fun hne halternate => hne halternate.1.1
  unfold ofWord
  split
  · rename_i hop
    unfold ofFormat2
    split <;> simp [implemented, hother, hop]
  · rename_i hop
    simp [implemented, hother, hop]
  · rename_i hop
    unfold ofFormat3
    split
    all_goals try split
    all_goals simp [implemented, hother, hop]
  · rename_i h0 h1 h2
    have hnot : ¬ w.op = 0 ∧ ¬ w.op = 1 ∧ ¬ w.op = 2 := ⟨h0, h1, h2⟩
    exact implemented_ofMemory (by omega)

/-- The listing and the executor: the words of data, and the alternate loads. -/
theorem implemented_iff (w : Word) : (ofWord w).implemented = false ↔
    IsWordLine (ofWord w).relativeText ∨ w.LoadsAlternate := by
  rw [implemented_ofWord, relativeText, isWordLine_iff]

end Instr

namespace Cpu

variable {c : Cpu} {σ : Type}

theorem retire_ends (c : Cpu) (bus : Bus σ) (s : σ) :
    (c.retire.hold bus s).1.1 = .completed ∨ ∃ t, (c.retire.hold bus s).1.1 = .trapped t := by
  unfold retire
  split
  · exact .inr ⟨_, rfl⟩
  · exact .inl rfl

/-- An implemented word has an end of its own. -/
theorem step_ends (hp : c.pendingTrap = none) (ha : c.pendingAnnul = false) {bus : Bus σ} {s : σ}
    {w : Word} (hf : c.fetched bus s = some w) (hi : (Instr.ofWord w).implemented) :
    (c.step.hold bus s).1.1 = .completed ∨ ∃ t, (c.step.hold bus s).1.1 = .trapped t := by
  rw [step_dispatched hp ha hf, dispatch, if_pos hi, Dialogue.hold_bind]
  exact retire_ends _ bus _

/-- Any other word stops the machine. -/
theorem step_stops (hp : c.pendingTrap = none) (ha : c.pendingAnnul = false) {bus : Bus σ} {s : σ}
    {w : Word} (hf : c.fetched bus s = some w) (hi : (Instr.ofWord w).implemented = false) :
    (c.step.hold bus s).1.1 = .unimplemented w := by
  rw [step_dispatched hp ha hf, dispatch, if_neg (Bool.eq_false_iff.mp hi)]
  rfl

end Cpu

/-- **Which words stop the machine.** Let a well-shaped processor, with no trap
pending and no skip owed, fetch the word `w`. Whatever it and the bus hold, the step
stops at `w` exactly if its line is one of data or it is an alternate load; at any
other word it completes or traps. The lines of data are those of the words whose
fields name no operation. With every check made the step is the same, so none fails:
no place lies outside the file, no shift is too far, no number too large, no divisor
zero, no window missing, and no case arises that must not. -/
theorem abort_set {σ : Type} {c : Cpu} (h : c.Shaped) (hp : c.pendingTrap = none)
    (ha : c.pendingAnnul = false) (bus : Bus σ) (s : σ) {w : Word} (hf : c.fetched bus s = some w) :
    ((c.step.hold bus s).1.1 = .unimplemented w ↔
      IsWordLine (Instr.ofWord w).relativeText ∨ w.LoadsAlternate) ∧
    (¬ (IsWordLine (Instr.ofWord w).relativeText ∨ w.LoadsAlternate) →
      (c.step.hold bus s).1.1 = .completed ∨ ∃ t, (c.step.hold bus s).1.1 = .trapped t) ∧
    (IsWordLine (Instr.ofWord w).relativeText ↔ w.IsData) ∧
    Checked.step c = c.step.map .ok ∧
    (Checked.step c).hold bus s = (.ok (c.step.hold bus s).1, (c.step.hold bus s).2) := by
  have hchecked := Checked.step_eq h
  refine ⟨?_, fun hnot => ?_, ?_, hchecked, ?_⟩
  · rw [← Instr.implemented_iff]
    cases hi : (Instr.ofWord w).implemented with
    | false => exact iff_of_true (Cpu.step_stops hp ha hf hi) rfl
    | true =>
      refine iff_of_false (fun hstop => ?_) nofun
      rcases Cpu.step_ends hp ha hf hi with hend | ⟨t, hend⟩
      · rw [hend] at hstop
        cases hstop
      · rw [hend] at hstop
        cases hstop
  · rw [← Instr.implemented_iff] at hnot
    exact Cpu.step_ends hp ha hf ((Bool.not_eq_false _).mp hnot)
  · exact (isWordLine_iff _ _).trans (Instr.unknown_ofWord w)
  · rw [hchecked, Dialogue.hold_map]

/-- A bus that answers every read with one word. -/
def wordBus (w : Word) : Bus Unit where
  read _ s := (.ok w, s)
  write addr _ s := (.error (.outOfRange addr), s)

/-- In the last of two windows, with the least dividend that has a sign. -/
def lastWindow : Cpu :=
  { resetTwo with y := 0x80000000, psr := { Cpu.resetState with cwp := 1 } }

/-- `sdivcc %i0, -1, %i0` on an in of the last window: the quotient that does not
exist is clamped, and all checks hold. A load in register form with address space 1
is listed as a load, and stops the machine. -/
theorem abort_set_sdiv :
    lastWindow.Shaped ∧ lastWindow.pendingTrap = none ∧ lastWindow.pendingAnnul = false ∧
      lastWindow.fetched (wordBus 0xb0fe3fff) () = some 0xb0fe3fff ∧
      (Checked.step lastWindow).hold (wordBus 0xb0fe3fff) () =
        (.ok (.completed, { lastWindow with
          pc := 4, npc := 8, regs := lastWindow.regs.set! 8 0x7fffffff,
          psr := { lastWindow.psr with icc := ⟨false, false, true, false⟩ } }), ()) ∧
      (lastWindow.step.hold (wordBus 0xd0000020) ()).1.1 = .unimplemented 0xd0000020 ∧
      (Instr.ofWord 0xd0000020).relativeText = "ld [%g0], %o0" := by
  have h : lastWindow.Shaped := ⟨by decide, by decide, by decide, by decide⟩
  have hf : lastWindow.fetched (wordBus 0xb0fe3fff) () = some 0xb0fe3fff := by decide
  have hf' : lastWindow.fetched (wordBus 0xd0000020) () = some 0xd0000020 := by decide
  obtain ⟨-, -, -, -, hhold⟩ := abort_set h rfl rfl (wordBus 0xb0fe3fff) () hf
  obtain ⟨hstops, -⟩ := abort_set h rfl rfl (wordBus 0xd0000020) () hf'
  refine ⟨h, rfl, rfl, hf, hhold.trans ?_, hstops.mpr (.inr (by decide)), by decide⟩
  exact congrArg (fun r => (Except.ok r, ())) (by decide)

end SparcIU
