/-
# Delayed transfers of control

Control is two addresses, that of the instruction at hand and that of the one
after it. A transfer comes behind both: the step that carries it out moves the
second address to the first and puts the destination in the second, so one more
instruction is executed before it takes effect, and that one may be a transfer
itself. A branch with its annul bit may have that instruction skipped instead.

`Cpu.destination` and `Cpu.annuls` read off a word where it sends control and
whether it has its successor skipped, by the fields of the formats and in whole
numbers. A step that completes follows them (`Cpu.steers_step`), and so does a
row of steps (`Walks.control`): the two addresses need nothing but what the
words on the way ask for.

Key definitions: `Cpu.destination`, `Cpu.annuls`, `Control.next`, `Walks`.
Key theorems: `Cpu.queues_ofWord`, `Cpu.steers_execute`, `Cpu.steers_step`,
`Walks.control`, `delayed_transfer`.
-/
import SparcIU.Proofs.Words
import SparcIU.Proofs.Precision

namespace SparcIU
namespace Cpu

variable {c c' c'' : Cpu}

/-! ### What a word asks for -/

/-- The second operand of a word of format 3: the low thirteen bits with their
sign, or a register. -/
def secondOperand (c : Cpu) (w : Word) : Word :=
  if w.immediate then UInt32.ofInt ((w.toNat : Int).bmod 0x2000) else c.get w.rs2

/-- Whether the condition of a branch holds. -/
def takes (c : Cpu) (w : Word) : Bool := (Cond.ofField w.cond).holds c.psr.icc

/-- Where a word sends control: a branch that is taken by the signed number in
its low 22 bits, a call by the number in its low 30 bits, both in words from the
address at hand; a jump and a return from a trap to the sum of their operands. -/
def destination (c : Cpu) (w : Word) : Option Word :=
  if w.op = 0 ∧ w.op2 = 2 then
    if c.takes w then some (UInt32.ofInt (c.pc.toNat + 4 * (w.toNat : Int).bmod 0x400000)) else none
  else if w.op = 1 then some (UInt32.ofNat (c.pc.toNat + 4 * (w.toNat % 0x40000000)))
  else if w.op = 2 ∧ (w.op3 = 0x38 ∨ w.op3 = 0x39) then some (c.get w.rs1 + c.secondOperand w)
  else none

/-- Whether a word has its successor skipped: a branch with its annul bit that
is not taken, or that is always taken. -/
def annuls (c : Cpu) (w : Word) : Bool :=
  decide (w.op = 0 ∧ w.op2 = 2) && w.annul && (!c.takes w || w.cond == 8)

/-! ### What an instruction asks for -/

/-- The target an instruction queues if it raises no trap. -/
def queues (c : Cpu) : Instr → Option Word
  | .branch cond _ offset => if cond.holds c.psr.icc then some (c.pc + offset) else none
  | .call offset => some (c.pc + offset)
  | .jmpl rs1 src _ | .rett rs1 src => some (c.sum rs1 src)
  | _ => none

/-- Whether an instruction has its successor skipped. -/
def skips (c : Cpu) : Instr → Bool
  | .branch cond annul _ => annul && (!cond.holds c.psr.icc || cond == .always)
  | _ => false

/-- A displacement in words is added as a number. -/
theorem add_branchOffset (c : Cpu) (w : Word) :
    c.pc + w.branchOffset = UInt32.ofInt (c.pc.toNat + 4 * (w.toNat : Int).bmod 0x400000) := by
  have hpc : UInt32.ofInt (c.pc.toNat : Int) = c.pc := by
    rw [Word.ofInt_natCast, UInt32.ofNat_toNat]
  rw [Word.branchOffset_eq, UInt32.ofInt_add, hpc]

theorem add_callOffset (c : Cpu) (w : Word) :
    c.pc + w.callOffset = UInt32.ofNat (c.pc.toNat + 4 * (w.toNat % 0x40000000)) := by
  rw [UInt32.ofNat_add, UInt32.ofNat_toNat, ← Word.toNat_callOffset, UInt32.ofNat_toNat]

/-- The widened immediate is the number in its field. -/
theorem operand_eq_second (c : Cpu) (w : Word) : c.operand w.operand = c.secondOperand w := by
  unfold Word.operand secondOperand
  split
  · have hext : (Word.signExtend 13 w).toInt = (w.toNat : Int).bmod 0x2000 :=
      Word.toInt_signExtend (by decide) (by decide) w
    rw [← hext, Word.ofInt_toInt]
    rfl
  · rfl

theorem cond_always {n : Nat} (hn : n < 16) : (Cond.ofField n == .always) = (n == 8) := by
  revert n
  decide

/-- In format 2 only a branch asks for anything. -/
theorem asks_ofFormat2 (c : Cpu) (w : Word) :
    c.queues (Instr.ofFormat2 w) = (if w.op2 = 2 then
      if c.takes w then some (UInt32.ofInt (c.pc.toNat + 4 * (w.toNat : Int).bmod 0x400000)) else none
      else none) ∧
    c.skips (Instr.ofFormat2 w) =
      (decide (w.op2 = 2) && w.annul && (!c.takes w || w.cond == 8)) := by
  have hcond : w.cond < 16 := Nat.mod_lt _ (by decide)
  by_cases h : w.op2 = 2
  · have hi : Instr.ofFormat2 w = .branch (Cond.ofField w.cond) w.annul w.branchOffset := by
      simp only [Instr.ofFormat2, h]
    rw [hi, if_pos h, decide_eq_true h, Bool.true_and, ← add_branchOffset, ← cond_always hcond]
    exact ⟨rfl, rfl⟩
  · rw [if_neg h, decide_eq_false h, Bool.false_and, Bool.false_and]
    unfold Instr.ofFormat2
    split
    · exact ⟨rfl, rfl⟩
    · contradiction
    · exact ⟨rfl, rfl⟩
    · exact ⟨rfl, rfl⟩

/-- In format 3 only a jump and a return from a trap ask for anything. -/
theorem asks_ofFormat3 (c : Cpu) (w : Word) :
    c.queues (Instr.ofFormat3 w) =
      (if w.op3 = 0x38 ∨ w.op3 = 0x39 then some (c.get w.rs1 + c.secondOperand w) else none) ∧
    c.skips (Instr.ofFormat3 w) = false := by
  by_cases h : w.op3 = 0x38 ∨ w.op3 = 0x39
  · rw [if_pos h, ← operand_eq_second]
    rcases h with h | h
    · simp only [Instr.ofFormat3, h]
      exact ⟨rfl, rfl⟩
    · simp only [Instr.ofFormat3, h]
      exact ⟨rfl, rfl⟩
  · rw [if_neg h]
    obtain ⟨hjump, hreturn⟩ := not_or.mp h
    unfold Instr.ofFormat3
    split
    all_goals try split
    all_goals first | contradiction | exact ⟨rfl, rfl⟩

theorem asks_ofMemory (c : Cpu) (w : Word) :
    c.queues (Instr.ofMemory w) = none ∧ c.skips (Instr.ofMemory w) = false := by
  unfold Instr.ofMemory
  split
  all_goals exact ⟨rfl, rfl⟩

/-- **The fields say it all.** What an instruction asks for is what the word it
came from does. -/
theorem asks_ofWord (c : Cpu) (w : Word) :
    c.queues (Instr.ofWord w) = c.destination w ∧ c.skips (Instr.ofWord w) = c.annuls w := by
  have h2 := asks_ofFormat2 c w
  have h3 := asks_ofFormat3 c w
  unfold Instr.ofWord destination annuls
  split
  · rename_i h
    simpa [h] using h2
  · rename_i h
    simp [h, queues, skips, add_callOffset]
  · rename_i h
    simpa [h] using h3
  · rename_i h0 h1 h2
    have hnot : ¬ w.op = 0 ∧ ¬ w.op = 1 ∧ ¬ w.op = 2 := ⟨h0, h1, h2⟩
    simp [hnot, asks_ofMemory]

/-! ### Instructions -/

/-- The change leaves control alone: the addresses, the annul flag and the
queued target. -/
structure Straight (c c' : Cpu) : Prop where
  pc : c'.pc = c.pc
  npc : c'.npc = c.npc
  annul : c'.pendingAnnul = c.pendingAnnul
  target : c'.branchTarget = c.branchTarget

/-- The change is that of an instruction that raised no trap: what the
instruction asks for is noted, and no address has moved yet. -/
structure Steers (c : Cpu) (i : Instr) (c' : Cpu) : Prop where
  pc : c'.pc = c.pc
  npc : c'.npc = c.npc
  annul : c'.pendingAnnul = (c.pendingAnnul || c.skips i)
  target : c'.branchTarget = (c.queues i).or c.branchTarget

theorem Straight.refl (c : Cpu) : Straight c c := ⟨rfl, rfl, rfl, rfl⟩

theorem Straight.trans (h : Straight c c') (h' : Straight c' c'') : Straight c c'' :=
  ⟨h'.pc.trans h.pc, h'.npc.trans h.npc, h'.annul.trans h.annul, h'.target.trans h.target⟩

theorem Straight.steers (h : Straight c c') {i : Instr} (hq : c.queues i = none)
    (hs : c.skips i = false) : Steers c i c' := by
  refine ⟨h.pc, h.npc, ?_, ?_⟩
  · rw [h.annul, hs, Bool.or_false]
  · rw [h.target, hq, Option.none_or]

theorem straight_set (c : Cpu) (r : Reg) (v : Word) : Straight c (c.set r v) := by
  constructor <;> simp

theorem straight_raise (c : Cpu) (t : TrapKind) : Straight c (c.raise t) := ⟨rfl, rfl, rfl, rfl⟩

theorem straight_finish (c : Cpu) (rd : Reg) (v : Word) (setsIcc : Bool) (f : Icc) :
    Straight c (c.finish rd v setsIcc f) := by
  have h := straight_set c rd v
  unfold finish
  cases setsIcc with
  | false => exact h
  | true => exact ⟨h.pc, h.npc, h.annul, h.target⟩

theorem straight_setY_finish (c : Cpu) (y : Word) (rd : Reg) (v : Word) (setsIcc : Bool) (f : Icc) :
    Straight c ({ c with y }.finish rd v setsIcc f) := by
  have h := straight_finish { c with y } rd v setsIcc f
  exact ⟨h.pc, h.npc, h.annul, h.target⟩

theorem straight_setState (c : Cpu) (r : StateReg) (v : Word) : Straight c (c.setState r v) := by
  cases r with
  | psr =>
    simp only [setState]
    split
    · exact ⟨rfl, rfl, rfl, rfl⟩
    · exact straight_raise ..
  | y | wim | tbr => exact ⟨rfl, rfl, rfl, rfl⟩

theorem straight_supervised (c : Cpu) {act : Cpu → Cpu} (h : Straight c (act c)) :
    Straight c (c.supervised act) := by
  unfold supervised
  split
  · exact h
  · exact straight_raise ..

theorem straight_moveWindow (c : Cpu) (t : Turn) (rs1 : Reg) (src : Operand) (rd : Reg) :
    Straight c (c.moveWindow t rs1 src rd) := by
  unfold moveWindow
  simp only
  split
  · exact straight_raise ..
  · have h := straight_set (c.setCwp (c.neighbour t)) rd (c.sum rs1 src)
    exact ⟨h.pc, h.npc, h.annul, h.target⟩

theorem steers_branch (c : Cpu) (cond : Cond) (annul : Bool) (offset : Word) :
    Steers c (.branch cond annul offset) (c.branch cond annul offset) := by
  let c₁ := if cond.holds c.psr.icc then c.transfer (c.pc + offset) else c
  have h₁ : c₁.pc = c.pc ∧ c₁.npc = c.npc ∧ c₁.pendingAnnul = c.pendingAnnul ∧
      c₁.branchTarget = (c.queues (.branch cond annul offset)).or c.branchTarget := by
    simp only [c₁, queues]
    split
    · exact ⟨rfl, rfl, rfl, rfl⟩
    · exact ⟨rfl, rfl, rfl, rfl⟩
  obtain ⟨hpc, hnpc, hannul, htarget⟩ := h₁
  show Steers c _ (if c.skips (.branch cond annul offset) then { c₁ with pendingAnnul := true } else c₁)
  split
  · rename_i hs
    exact ⟨hpc, hnpc, by rw [hs, Bool.or_true], htarget⟩
  · rename_i hs
    exact ⟨hpc, hnpc, by rw [hannul, Bool.eq_false_iff.mpr hs, Bool.or_false], htarget⟩

/-- A transfer that leaves its own address behind. -/
theorem steers_link (c : Cpu) {i : Instr} {rd : Reg} {target : Word} (hq : c.queues i = some target)
    (hs : c.skips i = false) : Steers c i (c.link rd target) := by
  have h := straight_set c rd c.pc
  refine ⟨h.pc, h.npc, ?_, ?_⟩
  · rw [hs, Bool.or_false]
    exact h.annul
  · rw [hq, Option.some_or]
    rfl

/-- A return from a trap that raises none itself. -/
theorem steers_returnFromTrap (c : Cpu) (rs1 : Reg) (src : Operand)
    (h : (c.returnFromTrap rs1 src).pendingTrap = none) :
    Steers c (.rett rs1 src) (c.returnFromTrap rs1 src) := by
  unfold returnFromTrap at h ⊢
  simp only at h ⊢
  split at h
  · cases h
  · split at h
    · cases h
    · split at h
      · cases h
      · rename_i hvalid hs het
        rw [if_neg hvalid, if_neg hs, if_neg het]
        exact ⟨rfl, rfl, (Bool.or_false _).symm, rfl⟩

/-- **What an instruction notes.** Without the bus, an instruction that raises
no trap notes what it asks for and nothing more. -/
theorem steers_operate (i : Instr) (h : (c.operate i).pendingTrap = none) :
    Steers c i (c.operate i) := by
  cases i with
  | branch cond annul offset => exact steers_branch ..
  | call offset | jmpl rs1 src rd => exact steers_link c rfl rfl
  | rett rs1 src => exact steers_returnFromTrap c rs1 src h
  | nop | load | store | unknown => exact (Straight.refl c).steers rfl rfl
  | sethi v rd | shift op rs1 src rd => exact (straight_set ..).steers rfl rfl
  | alu op setsIcc rs1 src rd => exact (straight_finish ..).steers rfl rfl
  | mul signed setsIcc rs1 src rd => exact (straight_setY_finish ..).steers rfl rfl
  | mulscc rs1 src rd =>
    refine Straight.steers ?_ rfl rfl
    simp only [operate, multiplyStep]
    exact straight_setY_finish ..
  | div signed setsIcc rs1 src rd =>
    refine Straight.steers ?_ rfl rfl
    simp only [operate, divide]
    split
    · exact straight_raise ..
    · exact straight_finish ..
  | readState r rd =>
    refine Straight.steers ?_ rfl rfl
    simp only [operate]
    exact straight_supervised c (straight_set ..)
  | writeState rs1 src r =>
    refine Straight.steers ?_ rfl rfl
    simp only [operate]
    exact straight_supervised c (straight_setState ..)
  | trapIf cond rs1 src =>
    refine Straight.steers ?_ rfl rfl
    simp only [operate, trapIf]
    split
    · exact straight_raise ..
    · exact .refl c
  | save rs1 src rd | restore rs1 src rd => exact (straight_moveWindow ..).steers rfl rfl

theorem straight_load (c : Cpu) (kind : LoadKind) (addr : Word) (rd : Reg) :
    (c.load kind addr rd).Always fun _ c' => Straight c c' :=
  always_load (fun c' r v h => h.trans (straight_set c' r v))
    (fun c' h => h.trans (straight_raise c' _)) (.refl c) kind addr rd

theorem straight_store (c : Cpu) (kind : StoreKind) (addr : Word) (rd : Reg) :
    (c.store kind addr rd).Always fun _ c' => Straight c c' :=
  always_store (fun c' h => h.trans (straight_raise c' _)) (.refl c) kind addr rd

theorem steers_execute (c : Cpu) (i : Instr) :
    (c.execute i).Always fun _ c' => c'.pendingTrap = none → Steers c i c' := by
  cases i with
  | load kind alternate rs1 src rd =>
    exact (straight_load c kind _ rd).mono fun _ _ h _ => h.steers rfl rfl
  | store kind rd rs1 src =>
    exact (straight_store c kind _ rd).mono fun _ _ h _ => h.steers rfl rfl
  | _ => exact steers_operate _

/-! ### Steps -/

/-- Register 0 of the file is no operand. -/
theorem get_clearZero (c : Cpu) (r : Reg) : c.clearZero.get r = c.get r := by
  have hsize : c.clearZero.regs.size = c.regs.size := Array.size_setIfInBounds
  have hindex : c.clearZero.index r = c.index r := by
    unfold index
    rw [hsize]
    rfl
  unfold get
  by_cases hr : r = 0
  · rw [if_pos hr, if_pos hr]
  · have hne : 0 ≠ c.index r := by
      have hval : r.val ≠ 0 := fun h => hr (Fin.ext h)
      unfold index
      simp only
      split
      · omega
      · split <;> omega
    rw [if_neg hr, if_neg hr, hindex]
    simp only [clearZero, Array.getD_eq_getD_getElem?, Array.getElem?_setIfInBounds_ne hne]

theorem sum_clearZero (c : Cpu) (rs1 : Reg) (src : Operand) :
    c.clearZero.sum rs1 src = c.sum rs1 src := by
  have hoperand : c.clearZero.operand src = c.operand src := by
    cases src with
    | reg r => exact get_clearZero c r
    | imm v => rfl
  unfold sum
  rw [get_clearZero, hoperand]

theorem destination_clearZero (c : Cpu) (w : Word) : c.clearZero.destination w = c.destination w := by
  simp only [destination, secondOperand, get_clearZero]
  rfl

/-- The word a step fetches: none from an address that is misaligned or refused. -/
def fetched {σ : Type} (bus : Bus σ) (c : Cpu) (s : σ) : Option Word :=
  if c.pc.isAligned then (bus.read c.pc s).1.toOption else none

section Fetch

variable {σ : Type} {bus : Bus σ} {s : σ} {word : Word}

theorem fetched_eq_some : c.fetched bus s = some word ↔
    c.pc.isAligned ∧ (bus.read c.pc s).1 = .ok word := by
  unfold fetched
  split
  · rename_i ha
    cases (bus.read c.pc s).1 with
    | ok w => simp [ha, Except.toOption]
    | error e => simp [ha, Except.toOption]
  · rename_i ha
    simp [ha]

theorem fetched_of_transcript {l : List Access}
    (h : c.step.transcript bus s = .read c.pc (.ok word) :: l) : c.fetched bus s = some word := by
  unfold step at h
  split at h
  · rename_i ha
    obtain ⟨hread, -⟩ := List.cons.inj h
    exact fetched_eq_some.mpr ⟨ha, (Access.read.inj hread).2⟩
  · cases h

/-- A fetched word is taken if no trap is pending. -/
theorem step_of_fetched (hp : c.pendingTrap = none) (hf : c.fetched bus s = some word) :
    c.step.hold bus s = (c.take word).hold bus (bus.read c.pc s).2 ∧
      c.step.transcript bus s =
        .read c.pc (.ok word) :: (c.take word).transcript bus (bus.read c.pc s).2 := by
  obtain ⟨ha, hread⟩ := fetched_eq_some.mp hf
  unfold step
  rw [if_pos ha]
  simp only [Dialogue.hold, Dialogue.transcript, hread, hp, and_self]

end Fetch

/-- What the word at hand asks for: nothing, if it is skipped. -/
def order (c : Cpu) (w : Word) : Option Word := if c.pendingAnnul then none else c.destination w

/-- **What a completed step does with control.** -/
theorem steers_step (ht : c.branchTarget = none) : c.step.Always fun l r => ∀ c',
    r = (.completed, c') → ∃ word rest, l = .read c.pc (.ok word) :: rest ∧
      c'.pc = c.npc ∧ c'.branchTarget = none ∧ c'.npc = (c.order word).getD (c.npc + 4) ∧
      c'.pendingAnnul = (!c.pendingAnnul && c.annuls word) := by
  refine always_step ?_ ?_ ?_ ?_ ?_ ?_
  · rintro - c' ⟨⟩
  · rintro e - c' ⟨⟩
  · rintro word t - - c' ⟨⟩
  · rintro word - - hannul c' h
    obtain ⟨-, rfl⟩ := Prod.mk.inj h
    refine ⟨word, [], rfl, rfl, rfl, ?_, ?_⟩
    · rw [order, if_pos hannul]
      show c.branchTarget.getD (c.npc + 4) = _
      rw [ht]
    · rw [hannul]
      rfl
  · rintro word - - - - c' ⟨⟩
  · intro word _ _ hannul _
    refine (steers_execute c.clearZero (Instr.ofWord word)).mono fun l c₁ hsteers c' h => ?_
    have hnone : c₁.pendingTrap = none := by
      cases hp : c₁.pendingTrap with
      | none => rfl
      | some t =>
        unfold outcome at h
        rw [hp] at h
        cases h
    unfold outcome at h
    rw [hnone] at h
    obtain ⟨-, rfl⟩ := Prod.mk.inj h
    obtain ⟨-, hnpc, hskip, htarget⟩ := hsteers hnone
    have hfalse : c.pendingAnnul = false := Bool.eq_false_iff.mpr hannul
    obtain ⟨hq, hs⟩ := asks_ofWord c.clearZero word
    refine ⟨word, l, rfl, hnpc, rfl, ?_, ?_⟩
    · have hall : c₁.branchTarget = c.destination word := by
        rw [htarget, hq, destination_clearZero, show c.clearZero.branchTarget = none from ht,
          Option.or_none]
      show c₁.branchTarget.getD (c₁.npc + 4) = _
      rw [hall, order, if_neg hannul, hnpc]
      rfl
    · show c₁.pendingAnnul = _
      rw [hskip, hs, show c.clearZero.pendingAnnul = false from hfalse, hfalse, Bool.false_or]
      rfl

/-- A word that is not skipped is carried out. -/
theorem step_dispatched {σ : Type} {bus : Bus σ} {s : σ} {word : Word} (hp : c.pendingTrap = none)
    (hannul : c.pendingAnnul = false) (hf : c.fetched bus s = some word) :
    c.step.hold bus s = (c.clearZero.dispatch word (Instr.ofWord word)).hold bus
      (bus.hear (.executes c.pc (Instr.ofWord word)) (bus.read c.pc s).2) := by
  have htake : c.take word = .remark (.executes c.pc (Instr.ofWord word))
      (c.clearZero.dispatch word (Instr.ofWord word)) := if_neg (Bool.eq_false_iff.mp hannul)
  rw [(step_of_fetched hp hf).1, htake]
  rfl

/-- **A skipped word.** Whatever it is, nothing happens but the fetch. -/
theorem step_annulled {σ : Type} {bus : Bus σ} {s : σ} {word : Word} (hp : c.pendingTrap = none)
    (hannul : c.pendingAnnul) (hf : c.fetched bus s = some word) :
    (c.step.hold bus s).1 = (.completed, { c.clearZero with pendingAnnul := false }.advance) ∧
      c.step.transcript bus s = [.read c.pc (.ok word)] := by
  obtain ⟨hhold, htranscript⟩ := step_of_fetched hp hf
  have htake : c.take word = .remark (.annuls c.pc (Instr.ofWord word))
      (.done (.completed, { c.clearZero with pendingAnnul := false }.advance)) := if_pos hannul
  rw [hhold, htranscript, htake]
  exact ⟨rfl, rfl⟩

end Cpu

/-! ### Rows of steps -/

/-- The state of control. -/
structure Control where
  pc : Word
  npc : Word
  /-- The instruction at hand is skipped. -/
  skip : Bool
  deriving DecidableEq

/-- Control after an instruction that asks for `destination` and has its
successor skipped if `annuls`. -/
def Control.next (k : Control) (destination : Option Word) (annuls : Bool) : Control :=
  if k.skip then ⟨k.npc, k.npc + 4, false⟩ else ⟨k.npc, destination.getD (k.npc + 4), annuls⟩

/-- The control of a processor. -/
def Cpu.control (c : Cpu) : Control := ⟨c.pc, c.npc, c.pendingAnnul⟩

/-- Steps that complete one after the other take a processor from `c` to `c'`;
the list has the states they start in and the words they fetch. -/
inductive Walks {σ : Type} (bus : Bus σ) : Cpu → σ → List (Cpu × Word) → Cpu → σ → Prop where
  | stay {c : Cpu} {s : σ} : Walks bus c s [] c s
  | step {c : Cpu} {s : σ} {word : Word} {c₁ : Cpu} {s₁ : σ} {l : List (Cpu × Word)} {c' : Cpu} {s' : σ}
    (hword : c.fetched bus s = some word) (hstep : c.step.hold bus s = ((.completed, c₁), s₁))
    (hrest : Walks bus c₁ s₁ l c' s') : Walks bus c s ((c, word) :: l) c' s'

section Rows

variable {σ : Type} {bus : Bus σ} {c c' : Cpu} {s s' : σ} {word : Word}

/-- A completed step and the word it fetched. -/
theorem Cpu.completed_step (ht : c.branchTarget = none)
    (hstep : (c.step.hold bus s).1 = (.completed, c')) : ∃ word, c.fetched bus s = some word ∧
      c'.pc = c.npc ∧ c'.branchTarget = none ∧ c'.npc = (c.order word).getD (c.npc + 4) ∧
      c'.pendingAnnul = (!c.pendingAnnul && c.annuls word) := by
  obtain ⟨word, rest, hl, h⟩ := (Cpu.steers_step ht).hold bus s c' hstep
  exact ⟨word, Cpu.fetched_of_transcript hl, h⟩

/-- One step takes control on by one. -/
theorem Cpu.control_step (ht : c.branchTarget = none) (hf : c.fetched bus s = some word)
    (hstep : (c.step.hold bus s).1 = (.completed, c')) :
    c'.control = c.control.next (c.destination word) (c.annuls word) := by
  obtain ⟨word', hf', hpc, -, hnpc, hannul⟩ := Cpu.completed_step ht hstep
  obtain rfl : word = word' := Option.some.inj (hf.symm.trans hf')
  unfold Cpu.control Control.next
  rw [hpc, hnpc, hannul, Cpu.order]
  simp only
  split
  · rename_i h
    simp [h]
  · rename_i h
    simp [h]

/-- **The two addresses and the flag are enough.** A row of steps leaves control
where the words that were fetched send it, one after the other. -/
theorem Walks.control {l : List (Cpu × Word)} (h : Walks bus c s l c' s')
    (ht : c.branchTarget = none) : c'.control =
      l.foldl (fun k x => k.next (x.1.destination x.2) (x.1.annuls x.2)) c.control := by
  induction h with
  | stay => rfl
  | step hword hstep hrest ih =>
    have hone := congrArg Prod.fst hstep
    obtain ⟨-, -, -, hidle, -⟩ := Cpu.completed_step ht hone
    rw [List.foldl_cons, ← Cpu.control_step ht hword hone]
    exact ih hidle

end Rows

/-- **Transfers of control are delayed.** Let no trap be pending and no target be
queued. A step that completes moves on to the second address and puts behind it
the destination of the word it fetched, if that was not skipped and has one, and
else the next address; the flag is set exactly by a word that was not skipped and
has its successor skipped. With the flag set, the step completes whatever the
word is, if only it can be fetched: it makes no other access and changes the
addresses, the flag and register 0 of the file alone. And a row of steps, with
transfers in the delay slots of others or not, leaves the addresses and the flag
as those of its words say. -/
theorem delayed_transfer {σ : Type} (bus : Bus σ) {c : Cpu} (hp : c.pendingTrap = none)
    (ht : c.branchTarget = none) (s : σ) :
    (∀ c', (c.step.hold bus s).1 = (.completed, c') → ∃ word, c.fetched bus s = some word ∧
      c'.pc = c.npc ∧ c'.branchTarget = none ∧
      c'.npc = (if c.pendingAnnul then none else c.destination word).getD (c.npc + 4) ∧
      c'.pendingAnnul = (!c.pendingAnnul && c.annuls word)) ∧
    (c.pendingAnnul → ∀ word, c.fetched bus s = some word →
      (c.step.hold bus s).1 = (.completed, { c with
        pc := c.npc, npc := c.npc + 4, pendingAnnul := false, regs := c.regs.setIfInBounds 0 0 }) ∧
      c.step.transcript bus s = [.read c.pc (.ok word)]) ∧
    ∀ l c' s', Walks bus c s l c' s' → c'.control =
      l.foldl (fun k x => k.next (x.1.destination x.2) (x.1.annuls x.2)) c.control := by
  refine ⟨fun c' hstep => Cpu.completed_step ht hstep, fun hannul word hf => ?_,
    fun l c' s' h => h.control ht⟩
  have h := Cpu.step_annulled hp hannul hf
  have hadvance : ({ c.clearZero with pendingAnnul := false } : Cpu).advance = { c with
      pc := c.npc, npc := c.npc + 4, pendingAnnul := false, regs := c.regs.setIfInBounds 0 0 } := by
    simp [Cpu.advance, Cpu.clearZero, ht]
  rwa [hadvance] at h

/-- A bus with `call .+16` at 0, `ba .+32` in its delay slot, `bn,a` at 16 and no
instruction at all at 36. -/
def transferBus : Bus Unit where
  read addr s := (.ok (if addr = 0 then 0x40000004 else if addr = 4 then 0x10800008
    else if addr = 16 then 0x20800002 else 0xffffffff), s)
  write _ _ s := (.ok (), s)

/-- The branch in the delay slot goes off from the call's destination, and the
word that is no instruction is skipped. -/
theorem delayed_transfer_branch_in_slot : ∃ l c', Walks transferBus resetTwo () l c' () ∧
    c'.control = l.foldl (fun k x => k.next (x.1.destination x.2) (x.1.annuls x.2)) ⟨0, 4, false⟩ ∧
    l.map (fun x => x.1.pc) = [0, 4, 16, 36] ∧ c'.control = ⟨40, 44, false⟩ := by
  let c₁ := { resetTwo with pc := 4, npc := 16 }
  let c₂ := { resetTwo with pc := 16, npc := 36 }
  let c₃ := { resetTwo with pc := 36, npc := 40, pendingAnnul := true }
  let c₄ := { resetTwo with pc := 40, npc := 44 }
  have h₁ : resetTwo.step.hold transferBus () = ((.completed, c₁), ()) := by decide
  have h₂ : c₁.step.hold transferBus () = ((.completed, c₂), ()) := by decide
  have h₃ : c₂.step.hold transferBus () = ((.completed, c₃), ()) := by decide
  have h₄ : c₃.step.hold transferBus () = ((.completed, c₄), ()) := by decide
  have hwalk : Walks transferBus resetTwo ()
      [(resetTwo, 0x40000004), (c₁, 0x10800008), (c₂, 0x20800002), (c₃, 0xffffffff)] c₄ () :=
    .step (by decide) h₁ (.step (by decide) h₂ (.step (by decide) h₃ (.step (by decide) h₄ .stay)))
  exact ⟨_, _, hwalk, (delayed_transfer transferBus rfl rfl ()).2.2 _ _ _ hwalk, rfl, rfl⟩

end SparcIU
