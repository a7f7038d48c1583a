/-
# The results of arithmetic instructions

An arithmetic instruction without a trap writes one register, the flags if it sets them,
and perhaps `%y`, and the processor moves on (`Cpu.withResult`). So what is left to say of
such an instruction is which word, which flags and which `%y` it yields, and that is a
matter of its operands: one equation for each kind of instruction, of a step in front of
which no trap is pending and no skip is owed.

Key definitions: `Cpu.atHand`, `Cpu.withResult`.
Key theorems: `Cpu.get_withResult`, `Cpu.step_atHand`, `Cpu.step_alu`, `Cpu.step_mul`,
`Cpu.step_div`, `Cpu.step_mulscc`.
-/
import SparcIU.Proofs.Footprint
import SparcIU.Proofs.HandlerReturn

namespace SparcIU

/-- The negative flag is the sign of the result as a number, and the zero flag says that the
number is zero. -/
theorem Icc.ofResult_eq (v : Word) (overflow carry : Bool) :
    Icc.ofResult v overflow carry = ⟨decide (v.toInt < 0), decide (v = 0), overflow, carry⟩ := by
  have hn : decide (0x80000000 ≤ v) = decide (v.toInt < 0) := by
    rw [decide_eq_decide, Word.toInt_neg_iff, UInt32.le_iff_toNat_le]
    exact Iff.rfl
  unfold Icc.ofResult
  rw [hn]
  rfl

namespace Cpu

variable {σ : Type} {bus : Bus σ} {s : σ} {c : Cpu}

/-! ### The instruction at hand -/

/-- The instruction a step carries out if it skips nothing: none if it cannot be fetched. -/
def atHand (bus : Bus σ) (c : Cpu) (s : σ) : Option Instr := (c.fetched bus s).map Instr.ofWord

/-- A step carries out the instruction at hand, if that does not use the bus. -/
theorem step_atHand {i : Instr} (hp : c.pendingTrap = none) (hannul : c.pendingAnnul = false)
    (hi : c.atHand bus s = some i) (hreal : i.implemented)
    (hexec : ∀ c : Cpu, c.execute i = .done (c.operate i)) :
    (c.step.hold bus s).1 = (c.clearZero.operate i).outcome := by
  obtain ⟨word, hf, hi⟩ := Option.map_eq_some_iff.mp hi
  exact step_operates hp hannul hf hi hreal hexec

theorem outcome_completed (hp : c.pendingTrap = none) : c.outcome = (.completed, c.advance) := by
  unfold outcome
  rw [hp]

theorem operand_clearZero (c : Cpu) (src : Operand) : c.clearZero.operand src = c.operand src := by
  cases src with
  | reg r => exact get_clearZero c r
  | imm v => rfl

/-! ### Where the result goes -/

/-- The processor after an arithmetic instruction: the result in `rd`, the flags and `%y` as
given, and control one instruction on. -/
def withResult (c : Cpu) (rd : Reg) (v : Word) (f : Icc) (y : Word) : Cpu :=
  { c.clearZero.set rd v with psr := { c.psr with icc := f }, y }.advance

section Fields

variable (c : Cpu) (rd : Reg) (v : Word) (f : Icc) (y : Word)

@[simp] theorem withResult_pc : (c.withResult rd v f y).pc = c.npc := set_npc ..

@[simp] theorem withResult_npc :
    (c.withResult rd v f y).npc = c.branchTarget.getD (c.npc + 4) := by
  show (c.clearZero.set rd v).branchTarget.getD ((c.clearZero.set rd v).npc + 4) = _
  rw [set_branchTarget, set_npc]
  rfl

@[simp] theorem withResult_icc : (c.withResult rd v f y).psr.icc = f := rfl

@[simp] theorem withResult_y : (c.withResult rd v f y).y = y := rfl

@[simp] theorem withResult_branchTarget : (c.withResult rd v f y).branchTarget = none := rfl

@[simp] theorem withResult_pendingTrap : (c.withResult rd v f y).pendingTrap = c.pendingTrap :=
  set_pendingTrap ..

@[simp] theorem withResult_pendingAnnul : (c.withResult rd v f y).pendingAnnul = c.pendingAnnul :=
  set_pendingAnnul ..

end Fields

theorem Shaped.withResult (h : c.Shaped) (rd : Reg) (v : Word) (f : Icc) (y : Word) :
    (c.withResult rd v f y).Shaped := by
  have hset := h.clearZero.set rd v
  refine hset.congr rfl rfl ?_
  rw [set_windows]
  exact h.cwp_lt

/-- The result is seen in its register, and in no other one of the window. -/
theorem get_withResult (h : c.Shaped) (rd : Reg) (v : Word) (f : Icc) (y : Word) (r : Reg) :
    (c.withResult rd v f y).get r = if rd ≠ 0 ∧ rd = r then v else c.get r := by
  have hsame : (c.withResult rd v f y).get r = (c.clearZero.set rd v).get r := by
    have hcwp : (c.withResult rd v f y).psr.cwp = (c.clearZero.set rd v).psr.cwp :=
      (congrArg Psr.cwp (set_psr c.clearZero rd v)).symm
    have hindex : (c.withResult rd v f y).index r = (c.clearZero.set rd v).index r :=
      index_congr hcwp rfl r
    unfold get
    rw [hindex]
    rfl
  rw [hsame, get_set h.clearZero, get_clearZero]

theorem get_withResult_self (h : c.Shaped) {rd : Reg} (hrd : rd ≠ 0) (v : Word) (f : Icc)
    (y : Word) : (c.withResult rd v f y).get rd = v := by
  rw [get_withResult h, if_pos ⟨hrd, rfl⟩]

theorem get_withResult_of_ne (h : c.Shaped) {rd r : Reg} (hr : r = 0 ∨ r ≠ rd) (v : Word) (f : Icc)
    (y : Word) : (c.withResult rd v f y).get r = c.get r := by
  rw [get_withResult h, if_neg]
  rintro ⟨hrd, rfl⟩
  exact hr.elim hrd (absurd rfl)

/-! ### Steps -/

/-- An instruction that ends with its result and its flags completes. -/
theorem outcome_finish (hp : c.pendingTrap = none) (y : Word) (rd : Reg) (v : Word) (cc : Bool)
    (f : Icc) : ({ c.clearZero with y }.finish rd v cc f).outcome =
      (.completed, c.withResult rd v (if cc then f else c.psr.icc) y) := by
  have hset : ({ c.clearZero with y } : Cpu).set rd v = { c.clearZero.set rd v with y } := by
    unfold set
    split
    · rfl
    · rfl
  have hpsr : (c.clearZero.set rd v).psr = c.psr := set_psr ..
  have hnone : ({ c.clearZero with y }.finish rd v cc f).pendingTrap = none := by
    rw [finish_pendingTrap]
    exact hp
  rw [outcome_completed hnone]
  unfold finish withResult
  rw [hset]
  cases cc with
  | false =>
    rw [if_neg Bool.false_ne_true, if_neg Bool.false_ne_true, ← hpsr]
  | true =>
    rw [if_pos rfl, if_pos rfl, setIcc, ← hpsr]

section Steps

variable (hp : c.pendingTrap = none) (hannul : c.pendingAnnul = false) {cc signed : Bool}
  {rs1 : Reg} {src : Operand} {rd : Reg}
include hp hannul

theorem step_alu {op : AluOp} (hi : c.atHand bus s = some (.alu op cc rs1 src rd)) :
    (c.step.hold bus s).1 = (.completed, c.withResult rd (op.apply (c.get rs1) (c.operand src)).1
      (if cc then (op.apply (c.get rs1) (c.operand src)).2 else c.psr.icc) c.y) := by
  rw [step_atHand hp hannul hi rfl fun _ => rfl, ← outcome_finish hp]
  show (c.clearZero.alu op cc rs1 src rd).outcome = _
  unfold alu
  rw [get_clearZero, operand_clearZero]
  rfl

theorem step_mul (hi : c.atHand bus s = some (.mul signed cc rs1 src rd)) :
    let p := Arith.product signed (c.get rs1) (c.operand src)
    (c.step.hold bus s).1 = (.completed,
      c.withResult rd p.2 (if cc then .ofResult p.2 false false else c.psr.icc) p.1) := by
  intro p
  rw [step_atHand hp hannul hi rfl fun _ => rfl, ← outcome_finish hp]
  show (c.clearZero.multiply signed cc rs1 src rd).outcome = _
  unfold multiply
  rw [get_clearZero, operand_clearZero]

/-- A division ends in its quotient, or in the trap of a division by zero. -/
theorem step_div (hi : c.atHand bus s = some (.div signed cc rs1 src rd)) :
    (c.step.hold bus s).1 = match Arith.quotient signed c.y (c.get rs1) (c.operand src) with
      | none => (.trapped (c.report .divisionByZero), c.clearZero.raise .divisionByZero)
      | some (q, clamped) => (.completed,
        c.withResult rd q (if cc then .ofResult q clamped false else c.psr.icc) c.y) := by
  rw [step_atHand hp hannul hi rfl fun _ => rfl]
  show (c.clearZero.divide signed cc rs1 src rd).outcome = _
  unfold divide
  rw [get_clearZero, operand_clearZero]
  show (match Arith.quotient signed c.y (c.get rs1) (c.operand src) with
    | none => c.clearZero.raise .divisionByZero
    | some (q, clamped) => c.clearZero.finish rd q cc (.ofResult q clamped false)).outcome = _
  cases Arith.quotient signed c.y (c.get rs1) (c.operand src) with
  | none => rfl
  | some x => exact outcome_finish hp c.y rd x.1 cc _

theorem step_mulscc (hi : c.atHand bus s = some (.mulscc rs1 src rd)) :
    let x := Arith.mulStep c.psr.icc c.y (c.get rs1) (c.operand src)
    (c.step.hold bus s).1 = (.completed, c.withResult rd x.1 x.2.2 x.2.1) := by
  intro x
  have hfinish := outcome_finish hp x.2.1 rd x.1 true x.2.2
  rw [step_atHand hp hannul hi rfl fun _ => rfl]
  show (c.clearZero.multiplyStep rs1 src rd).outcome = _
  unfold multiplyStep
  rw [get_clearZero, operand_clearZero]
  exact hfinish

end Steps

end Cpu
end SparcIU
