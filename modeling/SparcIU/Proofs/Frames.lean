/-
# A machine with frames

The reference for the register windows: a machine that has no windows, but a
frame for every call that has not returned, however many there are. A save
enters a new frame, whose ins are the caller's outs and whose locals and outs
hold anything; a restore goes back to the caller's own locals and ins, with the
callee's ins for its outs. Both add in the old frame and write in the new one.

`Cpu.Agrees` says that a processor shows what this machine holds, and within a
frame they do the same (`Cpu.agrees_operate`).

Key definitions: `Caller`, `Frames`, `Frames.enter`, `Frames.leave`,
`Frames.perform`, `Cpu.Agrees`.
Key theorems: `Cpu.agrees_set`, `Cpu.agrees_operate`.
-/
import SparcIU.Proofs.Ring
import SparcIU.Execution.Local

namespace SparcIU

/-- A caller, as it waits for its callee. -/
structure Caller where
  /-- The stack pointer when it executed its save. -/
  sp : Word
  /-- Its registers when it executed its save; its locals and ins come back. -/
  kept : Reg → Word

structure Frames where
  /-- The globals, and the outs, locals and ins of the current frame. -/
  now : Reg → Word
  y : Word
  icc : Icc
  /-- Those who wait, the current frame's own caller first. -/
  callers : List Caller

namespace Reg

theorem val_sub_sixteen {r : Reg} (h : 16 ≤ r.val) : (r - 16).val = r.val - 16 := by
  have hle : (16 : Reg) ≤ r := Fin.le_def.mpr h
  exact Fin.sub_val_of_le hle

theorem val_add_sixteen {r : Reg} (h : r.val < 16) : (r + 16).val = r.val + 16 := by
  have h16 : (16 : Reg).val = 16 := rfl
  rw [Fin.val_add, h16]
  omega

end Reg

namespace Frames

/-- One frame, and everything zero. -/
def start : Frames := ⟨fun _ => 0, 0, ⟨false, false, false, false⟩, []⟩

/-- The value of a register; register 0 is zero. -/
def get (m : Frames) (r : Reg) : Word := if r = 0 then 0 else m.now r

def set (m : Frames) (r : Reg) (v : Word) : Frames :=
  { m with now := fun r' => if r' = r then v else m.now r' }

def operand (m : Frames) : Operand → Word
  | .reg r => m.get r
  | .imm v => v

def sum (m : Frames) (rs1 : Reg) (src : Operand) : Word := m.get rs1 + m.operand src

/-- Writes a result, and its flags if the instruction sets them. -/
def finish (m : Frames) (rd : Reg) (result : Word) (setsIcc : Bool) (f : Icc) : Frames :=
  if setsIcc then { m.set rd result with icc := f } else m.set rd result

/-- A new frame; `fresh` is what its locals and outs hold. -/
def enter (m : Frames) (fresh : Reg → Word) : Frames :=
  { m with
    now := fun r => if r.val < 8 then m.now r else if r.val < 24 then fresh r else m.now (r - 16)
    callers := ⟨m.get Reg.sp, m.get⟩ :: m.callers }

/-- Back to a caller. -/
def leave (m : Frames) (caller : Caller) (rest : List Caller) : Frames :=
  { m with
    now := fun r => if r.val < 8 then m.now r else if r.val < 16 then m.now (r + 16) else caller.kept r
    callers := rest }

/-- Performs an instruction of the register file: none if there is no caller to
go back to, and none for other instructions. -/
def perform (m : Frames) (fresh : Reg → Word) : Instr → Option Frames
  | .nop => some m
  | .sethi v rd => some (m.set rd v)
  | .alu op setsIcc rs1 src rd =>
    match op.apply (m.get rs1) (m.operand src) with
    | (v, f) => some (m.finish rd v setsIcc f)
  | .shift op rs1 src rd => some (m.set rd (op.apply (m.get rs1) (m.operand src)))
  | .mul signed setsIcc rs1 src rd =>
    match Arith.product signed (m.get rs1) (m.operand src) with
    | (high, low) => some ({ m with y := high }.finish rd low setsIcc (.ofResult low false false))
  | .mulscc rs1 src rd =>
    match Arith.mulStep m.icc m.y (m.get rs1) (m.operand src) with
    | (v, y, f) => some ({ m with y }.finish rd v true f)
  | .save rs1 src rd => some ((m.enter fresh).set rd (m.sum rs1 src))
  | .restore rs1 src rd =>
    match m.callers with
    | [] => none
    | caller :: rest => some ((m.leave caller rest).set rd (m.sum rs1 src))
  | _ => none

theorem finish_callers (m : Frames) (rd : Reg) (v : Word) (setsIcc : Bool) (f : Icc) :
    (m.finish rd v setsIcc f).callers = m.callers := by
  unfold finish
  split <;> rfl

end Frames

/-- The instructions that work on the register file, `%y` and the flags. -/
def Instr.framed : Instr → Bool
  | nop | sethi _ _ | alu _ _ _ _ _ | shift _ _ _ _ | mul _ _ _ _ _ | mulscc _ _ _
  | save _ _ _ | restore _ _ _ => true
  | _ => false

/-- The instructions that stay in their frame. -/
def Instr.stays : Instr → Bool
  | save _ _ _ | restore _ _ _ => false
  | i => i.framed

namespace Cpu

variable {c : Cpu} {m m' : Frames}

/-- A processor shows what a machine with frames holds. -/
structure Agrees (c : Cpu) (m : Frames) : Prop where
  y : c.y = m.y
  icc : c.psr.icc = m.icc
  get : ∀ r, c.get r = m.get r

theorem Agrees.operand (h : Agrees c m) (src : Operand) : c.operand src = m.operand src := by
  cases src with
  | reg r => exact h.get r
  | imm v => rfl

theorem Agrees.sum (h : Agrees c m) (rs1 : Reg) (src : Operand) : c.sum rs1 src = m.sum rs1 src := by
  unfold Cpu.sum Frames.sum
  rw [h.get, h.operand]

/-- What a frame holds is what the current window shows. -/
theorem Agrees.now (h : Agrees c m) (hs : c.Shaped) {r : Reg} (hr : r ≠ 0) :
    m.now r = c.peek c.cwp r := by
  have hget := h.get r
  rw [get_eq_peek hs, Frames.get, if_neg hr] at hget
  exact hget.symm

theorem get_set_frames (m : Frames) (r r' : Reg) (v : Word) :
    (m.set r v).get r' = if r ≠ 0 ∧ r = r' then v else m.get r' := by
  unfold Frames.get
  by_cases h0 : r' = 0
  · subst h0
    rw [if_pos rfl, if_pos rfl, if_neg fun h => h.1 h.2]
  · rw [if_neg h0, if_neg h0]
    show (if r' = r then v else m.now r') = _
    by_cases he : r' = r
    · subst he
      rw [if_pos rfl, if_pos ⟨h0, rfl⟩]
    · rw [if_neg he, if_neg fun h => he h.2.symm]

/-- A register that is written in both is the same in both. -/
theorem agrees_set (hs : c.Shaped) (h : Agrees c m) (r : Reg) (v : Word) :
    Agrees (c.set r v) (m.set r v) := by
  refine ⟨(set_y c r v).trans h.y, (congrArg Psr.icc (set_psr c r v)).trans h.icc, fun r' => ?_⟩
  rw [get_set hs, get_set_frames, h.get]

theorem agrees_finish (hs : c.Shaped) (h : Agrees c m) (rd : Reg) (v : Word) (setsIcc : Bool)
    (f : Icc) : Agrees (c.finish rd v setsIcc f) (m.finish rd v setsIcc f) := by
  have hset := agrees_set hs h rd v
  unfold Cpu.finish Frames.finish
  cases setsIcc with
  | false => exact hset
  | true => exact ⟨hset.y, rfl, hset.get⟩

theorem Shaped.setY (hs : c.Shaped) (v : Word) : Shaped { c with y := v } :=
  hs.congr rfl rfl hs.cwp_lt

theorem agrees_setY (h : Agrees c m) (v : Word) : Agrees { c with y := v } { m with y := v } :=
  ⟨rfl, h.icc, h.get⟩

/-- **Within a frame both do the same.** -/
theorem agrees_operate (hs : c.Shaped) (h : Agrees c m) {i : Instr} (hi : i.stays)
    (fresh : Reg → Word) : ∃ m', m.perform fresh i = some m' ∧ Agrees (c.operate i) m' ∧
      m'.callers = m.callers := by
  have hset := fun rd v => agrees_set hs h rd v
  cases i with
  | nop => exact ⟨m, rfl, h, rfl⟩
  | sethi v rd => exact ⟨_, rfl, hset rd v, rfl⟩
  | alu op setsIcc rs1 src rd =>
    refine ⟨_, rfl, ?_, Frames.finish_callers ..⟩
    simp only [operate, alu, h.get, h.operand]
    exact agrees_finish hs h ..
  | shift op rs1 src rd =>
    refine ⟨_, rfl, ?_, rfl⟩
    simp only [operate, h.get, h.operand]
    exact hset ..
  | mul signed setsIcc rs1 src rd =>
    simp only [operate, multiply, Frames.perform, h.get, h.operand]
    exact ⟨_, rfl, agrees_finish (hs.setY _) (agrees_setY h _) .., Frames.finish_callers ..⟩
  | mulscc rs1 src rd =>
    simp only [operate, multiplyStep, Frames.perform, h.get, h.operand, h.y, h.icc]
    exact ⟨_, rfl, agrees_finish (hs.setY _) (agrees_setY h _) .., Frames.finish_callers ..⟩
  | _ => cases hi

/-- `c'` differs from `c` in `%y`, the flags and one register of the current
window. -/
structure Writes (c c' : Cpu) : Prop where
  regs : ∃ rd v, c'.regs = (c.set rd v).regs
  config : c'.config = c.config
  pc : c'.pc = c.pc
  npc : c'.npc = c.npc
  cwp : c'.cwp = c.cwp
  wim : c'.wim = c.wim
  trap : c'.pendingTrap = c.pendingTrap
  annul : c'.pendingAnnul = c.pendingAnnul
  target : c'.branchTarget = c.branchTarget

theorem writes_set (c : Cpu) (rd : Reg) (v : Word) : Writes c (c.set rd v) := by
  refine ⟨⟨rd, v, rfl⟩, ?_, ?_, ?_, ?_, ?_, ?_, ?_, ?_⟩
  all_goals simp

theorem writes_finish (c : Cpu) (rd : Reg) (v : Word) (setsIcc : Bool) (f : Icc) :
    Writes c (c.finish rd v setsIcc f) := by
  have h := writes_set c rd v
  unfold finish
  cases setsIcc with
  | false => exact h
  | true => exact ⟨h.regs, h.config, h.pc, h.npc, h.cwp, h.wim, h.trap, h.annul, h.target⟩

theorem writes_setY_finish (c : Cpu) (y : Word) (rd : Reg) (v : Word) (setsIcc : Bool) (f : Icc) :
    Writes c ({ c with y }.finish rd v setsIcc f) := by
  have h := writes_finish { c with y } rd v setsIcc f
  obtain ⟨rd', v', hregs⟩ := h.regs
  refine ⟨⟨rd', v', hregs.trans ?_⟩, h.config, h.pc, h.npc, h.cwp, h.wim, h.trap, h.annul, h.target⟩
  unfold Cpu.set
  split <;> rfl

theorem writes_operate (c : Cpu) {i : Instr} (hi : i.stays) : Writes c (c.operate i) := by
  cases i with
  | nop => exact ⟨⟨0, 0, rfl⟩, rfl, rfl, rfl, rfl, rfl, rfl, rfl, rfl⟩
  | sethi v rd | shift op rs1 src rd => exact writes_set ..
  | alu op setsIcc rs1 src rd => exact writes_finish ..
  | mul signed setsIcc rs1 src rd => exact writes_setY_finish ..
  | mulscc rs1 src rd =>
    simp only [operate, multiplyStep]
    exact writes_setY_finish ..
  | _ => cases hi

end Cpu
end SparcIU
