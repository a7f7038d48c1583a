/-
# Traps are precise

An instruction that traps has done nothing, so that it can be done again from
the start. Instructions that do not use the bus make every check before their
first write (`Cpu.operate_raises`). Those that do can fail at an access, and
three of them have another access behind them: `Cpu.cutShort` says what is left
of these, and `Cpu.execute_raises` that nothing is left of any other.
`trap_precise` is the sum for a whole step, the fetch included.

Key definitions: `Cpu.cutShort`, `Cpu.LeftBy`.
Key theorems: `Cpu.operate_raises`, `Cpu.execute_raises`, `trap_precise`.
-/
import SparcIU.Proofs.Words
import SparcIU.Proofs.Transcript
import SparcIU.Proofs.Ring

namespace SparcIU
namespace Cpu

variable {c : Cpu}

/-! ### Instructions that do not use the bus -/

@[simp] theorem setIcc_pendingTrap (f : Icc) : (c.setIcc f).pendingTrap = c.pendingTrap := rfl

@[simp] theorem finish_pendingTrap (rd : Reg) (v : Word) (setsIcc : Bool) (f : Icc) :
    (c.finish rd v setsIcc f).pendingTrap = c.pendingTrap := by
  unfold finish; simp only; split <;> simp

@[simp] theorem branch_pendingTrap (cond : Cond) (annul : Bool) (offset : Word) :
    (c.branch cond annul offset).pendingTrap = c.pendingTrap := by
  unfold branch; simp only; split <;> split <;> rfl

@[simp] theorem link_pendingTrap (rd : Reg) (target : Word) :
    (c.link rd target).pendingTrap = c.pendingTrap := by
  simp [link, transfer]

/-- An instruction that does not use the bus leaves a trap and nothing else, or
no trap of its own. -/
theorem operate_raises (i : Instr) :
    (∃ t, c.operate i = c.raise t) ∨ (c.operate i).pendingTrap = c.pendingTrap := by
  cases i with
  | branch cond annul offset => exact .inr (branch_pendingTrap ..)
  | call offset => exact .inr (link_pendingTrap ..)
  | jmpl rs1 src rd => exact .inr (link_pendingTrap ..)
  | alu op setsIcc rs1 src rd => exact .inr (finish_pendingTrap ..)
  | mul signed setsIcc rs1 src rd => exact .inr (finish_pendingTrap ..)
  | mulscc rs1 src rd => exact .inr (finish_pendingTrap ..)
  | sethi v rd => exact .inr (set_pendingTrap ..)
  | shift op rs1 src rd => exact .inr (set_pendingTrap ..)
  | nop => exact .inr rfl
  | load kind alternate rs1 src rd => exact .inr rfl
  | store kind rd rs1 src => exact .inr rfl
  | unknown word => exact .inr rfl
  | div signed setsIcc rs1 src rd =>
    simp only [operate, divide]
    split
    · exact .inl ⟨_, rfl⟩
    · exact .inr (finish_pendingTrap ..)
  | readState r rd =>
    simp only [operate, supervised]
    split
    · exact .inr (set_pendingTrap ..)
    · exact .inl ⟨_, rfl⟩
  | writeState rs1 src r =>
    simp only [operate, supervised]
    split
    · cases r with
      | psr =>
        simp only [setState]
        split
        · exact .inr rfl
        · exact .inl ⟨_, rfl⟩
      | y | wim | tbr => exact .inr rfl
    · exact .inl ⟨_, rfl⟩
  | rett rs1 src =>
    simp only [operate, returnFromTrap]
    split
    · exact .inl ⟨_, rfl⟩
    · split
      · exact .inl ⟨_, rfl⟩
      · split
        · exact .inl ⟨_, rfl⟩
        · exact .inr rfl
  | trapIf cond rs1 src =>
    simp only [operate, trapIf]
    split
    · exact .inl ⟨_, rfl⟩
    · exact .inr rfl
  | save rs1 src rd | restore rs1 src rd =>
    simp only [operate, moveWindow]
    split
    · exact .inl ⟨_, rfl⟩
    · exact .inr (set_pendingTrap ..)

/-! ### Loads and stores -/

/-- What is left of an instruction that a refused access cut short: the state,
and the words it stored. A double load keeps its first word and a test-and-set
the byte it read; a double store has stored its first word. -/
def cutShort (c : Cpu) : Instr → List Access → Cpu × List (Word × Word)
  | .load .double _ _ _ rd, [.read _ (.ok high), .read _ (.error _)] =>
    (c.set (evenOf rd) high, [])
  | .load .testAndSet _ rs1 src rd, [.read _ (.ok w), .write _ _ (.error _)] =>
    (c.set rd (w.byte (c.sum rs1 src).lane).toUInt32, [])
  | .store .double rd rs1 src, [.write _ _ (.ok ()), .write _ _ (.error _)] =>
    (c, [(c.sum rs1 src, c.get (evenOf rd))])
  | _, _ => (c, [])

/-- `c'` is what the trap `t` of instruction `i` leaves of `c` after the
accesses `l`. -/
def LeftBy (c : Cpu) (i : Instr) (l : List Access) (t : TrapKind) (c' : Cpu) : Prop :=
  c' = (c.cutShort i l).1.raise t ∧ stores l = (c.cutShort i l).2

/-- There is no trap, or all that is left of the instruction is what `cutShort`
says; only a data access trap comes after an access. -/
def Raises (c : Cpu) (i : Instr) (l : List Access) (c' : Cpu) : Prop :=
  c'.pendingTrap = none ∨ ∃ t, c.LeftBy i l t c' ∧ (t = .dataAccess ∨ l = [])

/-- Of a first access that fails nothing is left. -/
theorem cutShort_first (i : Instr) {l : List Access} (h : l.length ≤ 1) :
    c.cutShort i l = (c, []) := by
  unfold cutShort
  split
  · exact absurd h (by simp)
  · exact absurd h (by simp)
  · exact absurd h (by simp)
  · rfl

theorem raises_readWord {i : Instr} {addr : Word} {next : Cpu → Word → Dialogue Cpu}
    (h : ∀ w, addr.isAligned →
      (next c w).Always fun l c' => c.Raises i (.read addr (.ok w) :: l) c') :
    (c.readWord addr next).Always (c.Raises i) := by
  refine always_readWord h (fun e _ => Or.inr ⟨.dataAccess, ⟨?_, ?_⟩, .inl rfl⟩)
    fun _ => Or.inr ⟨.dataAccess, ⟨?_, ?_⟩, .inl rfl⟩
  all_goals rw [cutShort_first i (by simp)]
  all_goals rfl

theorem raises_writeWord {i : Instr} {addr v : Word} {next : Cpu → Dialogue Cpu}
    (h : addr.isAligned →
      (next c).Always fun l c' => c.Raises i (.write addr v (.ok ()) :: l) c') :
    (c.writeWord addr v next).Always (c.Raises i) := by
  refine always_writeWord h (fun e _ => Or.inr ⟨.dataAccess, ⟨?_, ?_⟩, .inl rfl⟩)
    fun _ => Or.inr ⟨.dataAccess, ⟨?_, ?_⟩, .inl rfl⟩
  all_goals rw [cutShort_first i (by simp)]
  all_goals rfl

theorem raises_operate (h : c.pendingTrap = none) (i : Instr) : c.Raises i [] (c.operate i) := by
  rcases operate_raises (c := c) i with ⟨t, ht⟩ | hsame
  · refine Or.inr ⟨t, ?_, .inr rfl⟩
    rw [LeftBy, cutShort_first i (by simp)]
    exact ⟨ht, rfl⟩
  · exact Or.inl (hsame.trans h)

/-- **What an executed instruction leaves.** The second access of a pair is
aligned because the first is, so it can only be refused. -/
theorem execute_raises (h : c.pendingTrap = none) (i : Instr) :
    (c.execute i).Always (c.Raises i) := by
  have hset : ∀ r v, (c.set r v).pendingTrap = none := fun r v => (set_pendingTrap c r v).trans h
  cases i with
  | load kind alternate rs1 src rd =>
    cases kind with
    | word | unsignedByte | unsignedHalf | signedByte | signedHalf =>
      simp only [execute, load]
      exact raises_readWord fun w _ => Or.inl (hset _ _)
    | double =>
      simp only [execute, load]
      refine raises_readWord fun high ha => always_readWord ?_ ?_ ?_
      · exact fun low _ => Or.inl (by simp [h])
      · exact fun e _ => Or.inr ⟨.dataAccess, ⟨rfl, rfl⟩, .inl rfl⟩
      · exact fun hn => absurd (Word.isAligned_add_four ha) hn
    | testAndSet =>
      simp only [execute, load]
      refine raises_readWord fun w ha => always_writeWord ?_ ?_ ?_
      · exact fun _ => Or.inl (by simp [h])
      · exact fun e _ => Or.inr ⟨.dataAccess, ⟨rfl, rfl⟩, .inl rfl⟩
      · exact fun hn => absurd ha hn
  | store kind rd rs1 src =>
    cases kind with
    | word =>
      simp only [execute, store]
      exact raises_writeWord fun _ => Or.inl h
    | byte | half =>
      simp only [execute, store]
      refine raises_readWord fun w ha => always_writeWord ?_ ?_ ?_
      · exact fun _ => Or.inl h
      · exact fun e _ => Or.inr ⟨.dataAccess, ⟨rfl, rfl⟩, .inl rfl⟩
      · exact fun hn => absurd ha hn
    | double =>
      simp only [execute, store]
      refine raises_writeWord fun ha => always_writeWord ?_ ?_ ?_
      · exact fun _ => Or.inl h
      · exact fun e _ => Or.inr ⟨.dataAccess, ⟨rfl, rfl⟩, .inl rfl⟩
      · exact fun hn => absurd (Word.isAligned_add_four ha) hn
  | _ => exact raises_operate h _

/-! ### Steps -/

@[simp] theorem cutShort_pc (i : Instr) (l : List Access) : (c.cutShort i l).1.pc = c.pc := by
  unfold cutShort; split <;> simp

@[simp] theorem cutShort_npc (i : Instr) (l : List Access) : (c.cutShort i l).1.npc = c.npc := by
  unfold cutShort; split <;> simp

@[simp] theorem cutShort_branchTarget (i : Instr) (l : List Access) :
    (c.cutShort i l).1.branchTarget = c.branchTarget := by
  unfold cutShort; split <;> simp

@[simp] theorem cutShort_pendingAnnul (i : Instr) (l : List Access) :
    (c.cutShort i l).1.pendingAnnul = c.pendingAnnul := by
  unfold cutShort; split <;> simp

@[simp] theorem cutShort_cwp (i : Instr) (l : List Access) : (c.cutShort i l).1.cwp = c.cwp := by
  unfold cutShort; split <;> simp

@[simp] theorem cutShort_wim (i : Instr) (l : List Access) : (c.cutShort i l).1.wim = c.wim := by
  unfold cutShort; split <;> simp

/-- What a step that ends in a trap reports and leaves: it fails to fetch and
leaves the state as it was, or it fetches a word and leaves what `cutShort`
says, with register 0 at its fixed value. -/
theorem step_raises (hp : c.pendingTrap = none) :
    c.step.Always fun l r => ∀ t c', r = (.trapped t, c') → t = c.report t.kind ∧
      ((t.kind = .instructionAccess ∧ c' = c.raise t.kind ∧ stores l = []) ∨
        ∃ word l', l = .read c.pc (.ok word) :: l' ∧
          c.clearZero.LeftBy (Instr.ofWord word) l' t.kind c' ∧
          (t.kind = .dataAccess ∨ l' = [])) := by
  refine always_step ?_ ?_ ?_ ?_ ?_ ?_
  · rintro - t c' h
    cases h
    exact ⟨rfl, .inl ⟨rfl, rfl, rfl⟩⟩
  · rintro e - t c' h
    cases h
    exact ⟨rfl, .inl ⟨rfl, rfl, rfl⟩⟩
  · intro word t _ ht
    rw [hp] at ht
    cases ht
  · rintro word - - - t c' h
    cases h
  · rintro word - - - - t c' h
    cases h
  · intro word _ _ _ _
    refine (execute_raises (show c.clearZero.pendingTrap = none from hp) _).mono ?_
    rintro l c₁ (h₁ | ⟨k, ⟨hk, hl⟩, hlast⟩) t c' h
    · simp [outcome, h₁] at h
    · have hpend : c₁.pendingTrap = some k := by rw [hk]; rfl
      simp only [outcome, hpend, Prod.mk.injEq, StepResult.trapped.injEq] at h
      obtain ⟨rfl, rfl⟩ := h
      refine ⟨?_, .inr ⟨word, l, rfl, ⟨hk, hl⟩, hlast⟩⟩
      rw [hk]
      simp [report, raise, clearZero]

/-- A step that ends in a window trap has done nothing. -/
theorem step_windowTrap (hp : c.pendingTrap = none) : c.step.Always fun _ r => ∀ t c',
    r = (.trapped t, c') → (t.kind = .windowOverflow ∨ t.kind = .windowUnderflow) →
      c' = c.clearZero.raise t.kind := by
  refine (step_raises hp).mono fun l r h t c' hr hk => ?_
  rcases (h t c' hr).2 with ⟨hkind, -⟩ | ⟨word, l', -, ⟨hc', -⟩, hkind | rfl⟩
  · rw [hkind] at hk
    rcases hk with h | h <;> cases h
  · rw [hkind] at hk
    rcases hk with h | h <;> cases h
  · rw [hc', cutShort_first _ (by simp)]

end Cpu

/-- **Traps are precise.** With no trap pending before, a step that ends in a
trap leaves that trap pending and reports it with the program counters, which
are what they were. It changed nothing else, unless it cut short a double load
or a test-and-set (`Cpu.cutShort`; register 0 is put back to zero), and it
stored nothing, unless it cut short a double store. -/
theorem trap_precise {σ : Type} {c c' : Cpu} {t : Trap} (hp : c.pendingTrap = none) (bus : Bus σ)
    (s : σ) (h : (c.step.hold bus s).1 = (.trapped t, c')) :
    c'.pendingTrap = some t.kind ∧ (t.pc = c.pc ∧ t.npc = c.npc) ∧ (c'.pc = c.pc ∧ c'.npc = c.npc) ∧
      ((c' = c.raise t.kind ∧ stores (c.step.transcript bus s) = []) ∨
        ∃ word l, c.step.transcript bus s = .read c.pc (.ok word) :: l ∧
          c' = (c.clearZero.cutShort (Instr.ofWord word) l).1.raise t.kind ∧
          stores l = (c.clearZero.cutShort (Instr.ofWord word) l).2) := by
  obtain ⟨ht, hrest⟩ := (Cpu.step_raises hp).hold bus s t c' h
  have hreport : t.pc = c.pc ∧ t.npc = c.npc := by rw [ht]; exact ⟨rfl, rfl⟩
  rcases hrest with ⟨-, rfl, hs⟩ | ⟨word, l, hl, ⟨rfl, hs⟩, -⟩
  · exact ⟨rfl, hreport, ⟨rfl, rfl⟩, .inl ⟨rfl, hs⟩⟩
  · exact ⟨rfl, hreport, ⟨Cpu.cutShort_pc .., Cpu.cutShort_npc ..⟩, .inr ⟨word, l, hl, rfl, hs⟩⟩

/-- A processor of two windows at address 0. -/
def resetTwo : Cpu :=
  { pc := 0, npc := 4, regs := Array.replicate 40 0, psr := Cpu.resetState, wim := 2, tbr := 0,
    y := 0, pendingTrap := none, pendingAnnul := false, branchTarget := none,
    config := { windows := 2 } }

/-- A bus with `ldd [%g0 + 8], %g2` at 0 and the word 7 at 8, and nothing else. -/
def doubleLoadBus : Bus Unit where
  read addr s :=
    (if addr = 0 then .ok 0xc4182008 else if addr = 8 then .ok 7 else .error (.outOfRange addr), s)
  write addr _ s := (.error (.outOfRange addr), s)

/-- The second word of a double load is refused: the first stays loaded. -/
theorem trap_precise_double_load :
    (resetTwo.step.hold doubleLoadBus ()).1
        = (.trapped ⟨.dataAccess, 0, 4⟩, (resetTwo.set 2 7).raise .dataAccess) ∧
      ∃ word l, resetTwo.step.transcript doubleLoadBus () = .read 0 (.ok word) :: l ∧
        (resetTwo.set 2 7).raise .dataAccess
          = (resetTwo.clearZero.cutShort (Instr.ofWord word) l).1.raise .dataAccess ∧
        stores l = (resetTwo.clearZero.cutShort (Instr.ofWord word) l).2 := by
  have hstep : (resetTwo.step.hold doubleLoadBus ()).1
      = (.trapped ⟨.dataAccess, 0, 4⟩, (resetTwo.set 2 7).raise .dataAccess) := by decide
  refine ⟨hstep, ?_⟩
  obtain ⟨-, -, -, ⟨hc, -⟩ | h⟩ := trap_precise rfl doubleLoadBus () hstep
  · exact absurd hc (by decide)
  · exact h

end SparcIU
