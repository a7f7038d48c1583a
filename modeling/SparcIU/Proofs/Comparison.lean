/-
# Compare and branch

A `subcc` of two words leaves flags from which each of the sixteen conditions reads a
relation of the two. The unsigned ones see the borrow and whether the difference is zero.
The signed ones see its sign, which is wrong exactly if the difference is no word, and then
the overflow flag puts it right (`Arith.sub_negative_ne_overflow`). So a branch or a
conditional trap behind the `subcc` goes by the relation its condition names
(`Cond.Compares`), for all words.

Key definitions: `Cond.Compares`.
Key theorems: `Arith.sub_negative_ne_overflow`, `Cond.holds_sub`, `Cpu.step_branch`,
`Cpu.step_trapIf`, `compare_branch`.
-/
import SparcIU.Proofs.MachineArithmetic
import SparcIU.Proofs.Results

namespace SparcIU

/-! ### What a condition says of two words -/

/-- The relation of `a` and `b` that a condition names after their comparison. The last two
pairs are about the difference: its top bit, and whether it is a word as a signed number. -/
def Cond.Compares (a b : Word) : Cond → Prop
  | always => True
  | never => False
  | equal => a = b
  | notEqual => a ≠ b
  | less => a.toInt < b.toInt
  | lessOrEqual => a.toInt ≤ b.toInt
  | greater => a.toInt > b.toInt
  | greaterOrEqual => a.toInt ≥ b.toInt
  | carrySet => a.toNat < b.toNat
  | lessOrEqualUnsigned => a.toNat ≤ b.toNat
  | greaterUnsigned => a.toNat > b.toNat
  | carryClear => a.toNat ≥ b.toNat
  | negative => (a - b).toNat.testBit 31 = true
  | positive => (a - b).toNat.testBit 31 = false
  | overflowSet => ¬ (-2 ^ 31 ≤ a.toInt - b.toInt ∧ a.toInt - b.toInt < 2 ^ 31)
  | overflowClear => -2 ^ 31 ≤ a.toInt - b.toInt ∧ a.toInt - b.toInt < 2 ^ 31

instance Cond.decidableCompares (a b : Word) : (cond : Cond) → Decidable (cond.Compares a b)
  | always => inferInstanceAs (Decidable True)
  | never => inferInstanceAs (Decidable False)
  | equal => inferInstanceAs (Decidable (a = b))
  | notEqual => inferInstanceAs (Decidable (a ≠ b))
  | less => inferInstanceAs (Decidable (a.toInt < b.toInt))
  | lessOrEqual => inferInstanceAs (Decidable (a.toInt ≤ b.toInt))
  | greater => inferInstanceAs (Decidable (a.toInt > b.toInt))
  | greaterOrEqual => inferInstanceAs (Decidable (a.toInt ≥ b.toInt))
  | carrySet => inferInstanceAs (Decidable (a.toNat < b.toNat))
  | lessOrEqualUnsigned => inferInstanceAs (Decidable (a.toNat ≤ b.toNat))
  | greaterUnsigned => inferInstanceAs (Decidable (a.toNat > b.toNat))
  | carryClear => inferInstanceAs (Decidable (a.toNat ≥ b.toNat))
  | negative => inferInstanceAs (Decidable ((a - b).toNat.testBit 31 = true))
  | positive => inferInstanceAs (Decidable ((a - b).toNat.testBit 31 = false))
  | overflowSet =>
    inferInstanceAs (Decidable ¬ (-2 ^ 31 ≤ a.toInt - b.toInt ∧ a.toInt - b.toInt < 2 ^ 31))
  | overflowClear =>
    inferInstanceAs (Decidable (-2 ^ 31 ≤ a.toInt - b.toInt ∧ a.toInt - b.toInt < 2 ^ 31))

/-! ### The flags of a subtraction -/

namespace Arith

variable (a b : Word)

theorem sub_negative : (sub a b).2.n = true ↔ (a - b).toInt < 0 := by
  rw [sub_eq, Icc.ofResult_eq]
  exact decide_eq_true_iff

theorem sub_zero_flag : (sub a b).2.z = true ↔ a = b := by
  rw [sub_eq]
  show (a - b == 0) = true ↔ a = b
  rw [beq_iff_eq, UInt32.sub_eq_iff_eq_add, UInt32.zero_add]

theorem sub_carry : (sub a b).2.c = true ↔ a.toNat < b.toNat := by
  rw [sub_eq]
  show decide (a < b) = true ↔ _
  rw [decide_eq_true_iff, UInt32.lt_iff_toNat_lt]

/-- The difference of two words wraps to a word, and it is the exact one if that is in
range. -/
theorem sub_overflow : (sub a b).2.v = false ↔
    -2 ^ 31 ≤ a.toInt - b.toInt ∧ a.toInt - b.toInt < 2 ^ 31 := by
  rw [sub_eq]
  show (a.toInt - b.toInt != (a - b).toInt) = false ↔ _
  have hbounds := (a - b).toInt_bounds
  rw [bne_eq_false_iff_eq]
  constructor
  · intro h
    rw [h]
    exact hbounds
  · rintro ⟨hl, hr⟩
    rw [Word.toInt_sub, Int.bmod_eq_of_le] <;> omega

/-- **The sign of the exact difference.** The two are less than 2^32 apart, so a difference
out of range wraps once, and its sign with it. -/
theorem sub_negative_ne_overflow :
    ((sub a b).2.n != (sub a b).2.v) = true ↔ a.toInt < b.toInt := by
  have ha := a.toInt_bounds
  have hb := b.toInt_bounds
  have hn := sub_negative a b
  have hv := sub_overflow a b
  have hwrap := Word.toInt_sub a b
  rw [Int.bmod_def] at hwrap
  cases hneg : (sub a b).2.n with
  | false | true =>
    rw [hneg] at hn
    cases hover : (sub a b).2.v with
    | false | true =>
      rw [hover] at hv
      simp only [bne_self_eq_false, Bool.bne_true, Bool.not_false, Bool.bne_false,
        Bool.false_eq_true, reduceCtorEq, false_iff, true_iff] at hn hv ⊢
      split at hwrap <;> omega

end Arith

/-- **Each condition reads its relation off the flags.** -/
theorem Cond.holds_sub (cond : Cond) (a b : Word) :
    cond.holds (Arith.sub a b).2 = true ↔ cond.Compares a b := by
  have hz := Arith.sub_zero_flag a b
  have hc := Arith.sub_carry a b
  have hn := Arith.sub_negative a b
  have hv := Arith.sub_overflow a b
  have hless := Arith.sub_negative_ne_overflow a b
  have hnat : a = b ↔ a.toNat = b.toNat := UInt32.toNat_inj.symm
  have hint : a = b ↔ a.toInt = b.toInt := Word.toInt_inj.symm
  have htop : (a - b).toNat.testBit 31 = true ↔ (a - b).toInt < 0 := by
    rw [Word.toInt_neg_iff, Nat.testBit_eq_decide_div_mod_eq, decide_eq_true_iff]
    have hlt := (a - b).toNat_lt
    omega
  -- a condition with "or equal" is the strict one or the zero flag, and the last eight are
  -- the negations of the first eight
  cases cond with
  | always | never => simp [holds, Compares]
  | equal => exact hz
  | carrySet => exact hc
  | less => exact hless
  | negative => exact hn.trans htop.symm
  | overflowClear => rw [holds, Bool.not_eq_true', hv, Compares]
  | overflowSet => rw [holds, ← Bool.not_eq_false, hv, Compares]
  | lessOrEqual => rw [holds, Bool.or_eq_true, hz, hless, hint, Compares]; omega
  | lessOrEqualUnsigned => rw [holds, Bool.or_eq_true, hz, hc, hnat, Compares]; omega
  | notEqual => rw [holds, Bool.not_eq_true', ← Bool.not_eq_true, hz, Compares]
  | carryClear => rw [holds, Bool.not_eq_true', ← Bool.not_eq_true, hc, Compares]; omega
  | greaterOrEqual => rw [holds, Bool.not_eq_true', ← Bool.not_eq_true, hless, Compares]; omega
  | positive =>
    rw [holds, Bool.not_eq_true', ← Bool.not_eq_true, hn, Compares, ← Bool.not_eq_true, htop]
  | greater =>
    rw [holds, Bool.not_eq_true', ← Bool.not_eq_true, Bool.or_eq_true, hz, hless, hint, Compares]
    omega
  | greaterUnsigned =>
    rw [holds, Bool.not_eq_true', ← Bool.not_eq_true, Bool.or_eq_true, hz, hc, hnat, Compares]
    omega

/-! ### The instructions that test a condition -/

section Steps

variable {σ : Type} {bus : Bus σ} {s : σ} {c : Cpu} {cond : Cond}

theorem Cpu.branch_eq (c : Cpu) (cond : Cond) (annul : Bool) (offset : Word) :
    c.branch cond annul offset = { c with
      branchTarget := if cond.holds c.psr.icc then some (c.pc + offset) else c.branchTarget
      pendingAnnul :=
        if annul && (!cond.holds c.psr.icc || cond == .always) then true else c.pendingAnnul } := by
  unfold branch transfer
  dsimp only
  by_cases hholds : cond.holds c.psr.icc
  · rw [if_pos hholds, if_pos hholds]
    split
    · rfl
    · rfl
  · rw [if_neg hholds, if_neg hholds]
    split
    · rfl
    · rfl

/-- A branch completes: control goes on to its target if its condition holds, behind the
instruction after it. -/
theorem Cpu.step_branch (hp : c.pendingTrap = none) (hannul : c.pendingAnnul = false)
    (ht : c.branchTarget = none) {annul : Bool} {offset : Word}
    (hi : c.atHand bus s = some (.branch cond annul offset)) :
    (c.step.hold bus s).1 = (.completed, { c.clearZero with
      pc := c.npc
      npc := if cond.holds c.psr.icc then c.pc + offset else c.npc + 4
      pendingAnnul := annul && (!cond.holds c.psr.icc || cond == .always)
      branchTarget := none }) := by
  have hicc : c.clearZero.psr.icc = c.psr.icc := rfl
  have hskip : c.clearZero.pendingAnnul = false := hannul
  have hidle : c.clearZero.branchTarget = none := ht
  rw [step_atHand hp hannul hi rfl fun _ => rfl]
  show (c.clearZero.branch cond annul offset).outcome = _
  rw [branch_eq, hicc, hskip, hidle, Bool.if_true_left, Bool.or_false, Bool.decide_eq_true,
    outcome_completed]
  · unfold advance
    dsimp only
    by_cases hholds : cond.holds c.psr.icc
    · rw [if_pos hholds, if_pos hholds]
      rfl
    · rw [if_neg hholds, if_neg hholds]
      rfl
  · exact hp

/-- A conditional trap is taken if its condition holds, and does nothing else. -/
theorem Cpu.step_trapIf (hp : c.pendingTrap = none) (hannul : c.pendingAnnul = false)
    {rs1 : Reg} {src : Operand} (hi : c.atHand bus s = some (.trapIf cond rs1 src)) :
    let t := TrapKind.software (c.sum rs1 src % 0x80).toUInt8
    (c.step.hold bus s).1 = if cond.holds c.psr.icc then (.trapped (c.report t), c.clearZero.raise t)
      else (.completed, c.clearZero.advance) := by
  intro t
  have hzero : c.clearZero.pendingTrap = none := hp
  rw [step_atHand hp hannul hi rfl fun _ => rfl]
  show (c.clearZero.trapIf cond rs1 src).outcome = _
  unfold trapIf
  rw [sum_clearZero]
  show outcome (if cond.holds c.psr.icc = true then _ else _) = _
  split
  · rfl
  · exact outcome_completed hzero

end Steps

/-! ### The comparison and what follows it -/

/-- **Compare and branch agree with the numbers.** Let a `subcc` of `a` and `b` be at hand.
It completes. Its register, if that is not `%g0`, then has their difference up to 2^32, and
the others are as before. Every condition holds of the flags it leaves exactly if its
relation holds of `a` and `b`. So a branch that comes next goes to its target exactly then,
and a conditional trap that comes next is taken exactly then. -/
theorem compare_branch {σ : Type} (bus : Bus σ) {c : Cpu} (h : c.Shaped)
    (hp : c.pendingTrap = none) (hannul : c.pendingAnnul = false) (s : σ) {rs1 rd : Reg}
    {src : Operand} (hi : c.atHand bus s = some (.alu .sub true rs1 src rd)) :
    let a := c.get rs1
    let b := c.operand src
    ∃ c₁, (c.step.hold bus s).1 = (.completed, c₁) ∧
      (rd ≠ 0 → ((c₁.get rd).toNat : Int) = (a.toNat - b.toNat) % 2 ^ 32) ∧
      (∀ r, r = 0 ∨ r ≠ rd → c₁.get r = c.get r) ∧
      (∀ cond : Cond, cond.holds c₁.psr.icc = true ↔ cond.Compares a b) ∧
      ∀ (s₁ : σ) (cond : Cond),
        (∀ annul offset, c₁.atHand bus s₁ = some (.branch cond annul offset) →
          (c₁.step.hold bus s₁).1 = (.completed, { c₁.clearZero with
            pc := c₁.npc
            npc := if cond.Compares a b then c₁.pc + offset else c₁.npc + 4
            pendingAnnul := annul && (!decide (cond.Compares a b) || cond == .always) })) ∧
        (∀ rs1 src, c₁.atHand bus s₁ = some (.trapIf cond rs1 src) →
          let t := TrapKind.software (c₁.sum rs1 src % 0x80).toUInt8
          (c₁.step.hold bus s₁).1 = if cond.Compares a b
            then (.trapped (c₁.report t), c₁.clearZero.raise t)
            else (.completed, c₁.clearZero.advance)) := by
  intro a b
  let c₁ := c.withResult rd (a - b) (Arith.sub a b).2 c.y
  have hstep : (c.step.hold bus s).1 = (.completed, c₁) := by
    have hdiff : (Arith.sub a b).1 = a - b := by rw [Arith.sub_eq]
    have halu : (c.step.hold bus s).1 =
        (.completed, c.withResult rd (Arith.sub a b).1 (Arith.sub a b).2 c.y) :=
      Cpu.step_alu hp hannul hi
    rwa [hdiff] at halu
  have hcond : ∀ cond : Cond, cond.holds c₁.psr.icc = true ↔ cond.Compares a b := by
    intro cond
    rw [Cpu.withResult_icc]
    exact cond.holds_sub a b
  have hdecide : ∀ cond : Cond, cond.holds c₁.psr.icc = decide (cond.Compares a b) := by
    intro cond
    exact Bool.eq_iff_iff.mpr ((hcond cond).trans decide_eq_true_iff.symm)
  have hp₁ : c₁.pendingTrap = none := (Cpu.withResult_pendingTrap ..).trans hp
  have hannul₁ : c₁.pendingAnnul = false := (Cpu.withResult_pendingAnnul ..).trans hannul
  refine ⟨c₁, hstep, fun hrd => ?_,
    fun r hr => Cpu.get_withResult_of_ne h hr .., hcond,
    fun s₁ cond => ⟨fun annul offset hi₁ => ?_, fun rs1 src hi₁ => ?_⟩⟩
  · rw [Cpu.get_withResult_self h hrd, UInt32.toNat_sub]
    have ha := a.toNat_lt
    have hb := b.toNat_lt
    omega
  · rw [Cpu.step_branch hp₁ hannul₁ rfl hi₁, hdecide]
    simp only [decide_eq_true_eq]
    rfl
  · rw [Cpu.step_trapIf hp₁ hannul₁ hi₁, hdecide]
    simp only [decide_eq_true_eq]

/-- A bus with `subcc %g1, 1, %g0` at 0 and `bl .+16` at 4. -/
def comparisonBus : Bus Unit where
  read addr s := (.ok (if addr = 0 then 0x80a06001 else 0x06800004), s)
  write _ _ s := (.ok (), s)

/-- The least word is less than one, though their difference is positive as a word. -/
theorem compare_branch_wraps : ∃ c₁ : Cpu, (resetTwo.set 1 0x80000000).get 1 = 0x80000000 ∧
    ((resetTwo.set 1 0x80000000).step.hold comparisonBus ()).1 = (.completed, c₁) ∧
    c₁.psr.icc = ⟨false, false, true, false⟩ ∧ c₁.pc = 4 ∧
    (c₁.step.hold comparisonBus ()).1 = (.completed, { c₁.clearZero with
      pc := 8, npc := 20, pendingAnnul := false }) := by
  have hi : (resetTwo.set 1 0x80000000).atHand comparisonBus () =
      some (.alu .sub true 1 (.imm 1) 0) := by decide
  obtain ⟨c₁, hstep, -, -, -, hnext⟩ := compare_branch comparisonBus
    ⟨by decide, by decide, by decide, by decide⟩ rfl rfl () hi
  obtain rfl : ((resetTwo.set 1 0x80000000).step.hold comparisonBus ()).1.2 = c₁ :=
    congrArg Prod.snd hstep
  refine ⟨_, by decide, hstep, by decide, by decide, ?_⟩
  exact (hnext () .less).1 false 16 (by decide)

end SparcIU
