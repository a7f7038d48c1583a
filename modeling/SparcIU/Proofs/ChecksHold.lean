/-
# No check fails

In a well-shaped processor every check of `Checked.step` holds, so that it is the
step of `Cpu.step`. Each function with checks has one lemma: its result is that of
the one without. Two facts carry them: the places of a well-shaped processor lie in
the file (`Checked.index_lt`), and a window next to the current one exists. Dispatch
by groups of numbers and the decoder agree on every word (`Checked.format3_eq`,
`Checked.memory_eq`).

Key definitions: `Checked.unchecked`.
Key theorems: `Checked.quotient_eq`, `Checked.format3_eq`, `Checked.memory_eq`,
`Checked.exec_eq`, `Checked.step_eq`.
-/
import SparcIU.Proofs.Checked
import SparcIU.Proofs.Keeping

namespace SparcIU
namespace Checked

/-! ### Checks that hold -/

section Holds

variable {α β : Type}

theorem ok_bind (a : α) (f : α → Checked β) : ((.ok a : Checked α) >>= f) = f a := rfl

theorem require_of {p : Prop} [Decidable p] (h : p) (b : Breach) : require p b = .ok () := if_pos h

theorem fits_unsigned {bits : Nat} {v : Int} (h0 : 0 ≤ v) (h : v < 2 ^ bits) :
    fits false bits v = .ok v := by
  unfold fits
  rw [if_neg Bool.false_ne_true, require_of ⟨h0, h⟩]
  rfl

theorem fits_signed {bits : Nat} {v : Int} (hl : -2 ^ (bits - 1) ≤ v) (h : v < 2 ^ (bits - 1)) :
    fits true bits v = .ok v := by
  unfold fits
  rw [if_pos rfl, require_of ⟨hl, h⟩]
  rfl

theorem amount_of {bits n : Nat} (h : n < bits) : amount bits n = .ok n := by
  unfold amount
  rw [require_of h]
  rfl

end Holds

/-! ### Registers and windows of a well-shaped processor -/

section Shaped

variable {c : Cpu} {w : Word}

theorem index_lt (h : c.Shaped) (r : Reg) : c.index r < c.regs.size := by
  rw [Cpu.index_eq h, h.size]
  exact Window.place_lt h.cwp_lt r

theorem place_eq (h : c.Shaped) (r : Reg) : place c r = .ok (c.index r) := by
  have hsize : c.regs.size ≠ 0 := by
    rw [h.size]
    omega
  unfold place Cpu.index
  split
  · rfl
  · simp only
    split
    · rfl
    · rw [require_of hsize]
      rfl

theorem get_eq (h : c.Shaped) (r : Reg) : get c r = .ok (c.get r) := by
  unfold get Cpu.get
  split
  · rfl
  · rw [place_eq h, ok_bind, require_of (index_lt h r)]
    rfl

theorem set_eq (h : c.Shaped) (r : Reg) (v : Word) : set c r v = .ok (c.set r v) := by
  unfold set Cpu.set
  split
  · rfl
  · rw [place_eq h, ok_bind, require_of (index_lt h r)]
    rfl

theorem clearZero_eq (h : c.Shaped) : clearZero c = .ok c.clearZero := by
  have hsize : 0 < c.regs.size := by
    rw [h.size]
    omega
  unfold clearZero
  rw [require_of hsize]
  rfl

theorem neighbour_eq (h : c.Shaped) (t : Turn) : neighbour c t = .ok (c.neighbour t) := by
  have hpos := h.pos
  have hle := h.le
  have hcwp := h.cwp_lt
  have hn : c.config.windows.toNat = c.windows := rfl
  unfold neighbour Cpu.neighbour
  cases t with
  | up | down =>
    simp only
    rw [fits_unsigned (by omega) (by omega), ok_bind, require_of (by omega), ok_bind]
    exact congrArg (fun n => Except.ok (n % c.windows)) (by omega)

theorem setCwp_eq {window : Nat} (hw : window < c.windows) :
    setCwp c window = .ok (c.setCwp window) := by
  unfold setCwp
  rw [require_of hw]
  rfl

theorem isInvalid_eq (c : Cpu) (window : Nat) : isInvalid c window = .ok (c.isInvalid window) := by
  unfold isInvalid Cpu.isInvalid
  split
  · rename_i hw
    rw [amount_of hw, ok_bind, decide_eq_true hw, Bool.true_and]
    rfl
  · rename_i hw
    rw [decide_eq_false hw, Bool.false_and]
    rfl

theorem windowMask_eq (n : UInt8) : windowMask n = .ok (Cpu.windowMask n) := by
  unfold windowMask Cpu.windowMask
  split
  · rfl
  · rename_i hn
    have hlt : n.toNat < 32 := Nat.lt_of_not_le fun h => hn (UInt8.le_iff_toNat_le.mpr h)
    have hone : ((1 : Word) <<< UInt32.ofNat n.toNat).toNat = 2 ^ n.toNat :=
      (Word.toNat_one_shiftLeft hlt).trans (Nat.one_shiftLeft _)
    have hpos := Nat.two_pow_pos n.toNat
    have hword := ((1 : Word) <<< UInt32.ofNat n.toNat).toNat_lt
    have hle : 1 ≤ (1 : Word) <<< UInt32.ofNat n.toNat := by
      rw [UInt32.le_iff_toNat_le, hone]
      exact hpos
    have hlow : (((1 : Word) <<< UInt32.ofNat n.toNat).toNat - 1 : Int) =
        ((1 : Word) <<< UInt32.ofNat n.toNat - 1).toNat := by
      rw [UInt32.toNat_sub_of_le _ _ hle, show (1 : Word).toNat = 1 from rfl]
      omega
    rw [amount_of hlt, ok_bind, fits_unsigned (by omega) (by omega), ok_bind, hlow, Word.ofInt_natCast,
      UInt32.ofNat_toNat, Word.toUInt32_eq_ofNat]
    rfl

theorem gap_eq {bits : Nat} (h1 : 1 ≤ bits) (h32 : bits ≤ 32) : gap bits = .ok (32 - bits) := by
  have hnat : ((32 : Int) - bits).toNat = 32 - bits := by omega
  unfold gap
  rw [fits_unsigned (by omega) (by omega), ok_bind, hnat, amount_of (by omega)]

theorem operand_eq (h : c.Shaped) (w : Word) : operand c w = .ok (c.operand w.operand) := by
  unfold operand Word.operand
  split
  · rfl
  · exact get_eq h _

theorem sum_eq (h : c.Shaped) (w : Word) : sum c w = .ok (c.sum w.rs1 w.operand) := by
  unfold sum
  rw [get_eq h, ok_bind, operand_eq h]
  rfl

end Shaped

/-! ### Arithmetic -/

/-- The number of an operation, without the flags. -/
def aluNumber : AluOp → Nat
  | .add => 0
  | .and => 1
  | .or => 2
  | .xor => 3
  | .sub => 4
  | .andn => 5
  | .orn => 6

theorem aluResult_eq (op : AluOp) (a b : Word) : aluResult (aluNumber op) a b = .ok (op.apply a b) := by
  cases op with
  | sub =>
    have ha := a.toInt_bounds
    have hb := b.toInt_bounds
    show (do let _ ← fits true 64 (a.toInt - b.toInt); return Arith.sub a b) = _
    rw [fits_signed (by omega) (by omega), ok_bind]
    rfl
  | _ => rfl

/-- A product of two words has 64 bits. -/
theorem fits_product (signed : Bool) (a b : Word) :
    fits signed 64 (Arith.value signed a * Arith.value signed b) =
      .ok (Arith.value signed a * Arith.value signed b) := by
  cases signed with
  | false =>
    have hmul := a.toNat_mul_lt b
    have hcast : Arith.value false a * Arith.value false b = (a.toNat * b.toNat : Nat) :=
      (Int.natCast_mul ..).symm
    rw [hcast]
    exact fits_unsigned (by omega) (by omega)
  | true =>
    have habs : (Arith.value true a * Arith.value true b).natAbs ≤ 2 ^ 62 := a.natAbs_mul_le b
    exact fits_signed (by omega) (by omega)

/-- The order in which the ends of the range are tried does not matter, for zero is
between them. -/
theorem clamp_eq (signed : Bool) (q : Int) : clamp signed q = Arith.clamped signed q := by
  have hrange : (Arith.range signed).1 ≤ 0 ∧ 0 ≤ (Arith.range signed).2 := by
    cases signed <;> decide
  unfold clamp Arith.clamped
  simp only
  split
  · rename_i hq
    rw [if_neg (by omega), if_neg (by omega)]
  · split
    · rw [if_neg (by omega), if_pos (by omega)]
    · rw [if_pos (by omega)]

/-- A quotient of the model is the clamped one of the integers. -/
theorem quotient_of_ne {b : Word} (hb : b ≠ 0) (signed : Bool) (high low : Word) :
    Arith.quotient signed high low b = some (clamp signed
      ((Arith.value signed high * 0x100000000 + low.toNat).tdiv (Arith.value signed b))) := by
  rw [Arith.quotient_eq_clamped high low hb, clamp_eq]

theorem quotient_eq (signed : Bool) (high low b : Word) :
    quotient signed high low b = .ok (Arith.quotient signed high low b) := by
  unfold quotient
  split
  · rename_i hb
    rw [hb, Arith.quotient_zero]
    rfl
  · rename_i hb
    rw [quotient_of_ne hb]
    cases signed with
    | false =>
      have hne : b.toNat ≠ 0 := fun h => hb (UInt32.toNat_inj.mp h)
      have hdiv : (Arith.value false high * 0x100000000 + low.toNat).tdiv (Arith.value false b) =
          ((high.toNat * 0x100000000 + low.toNat) / b.toNat : Nat) := (Int.ofNat_tdiv ..).symm
      rw [if_neg Bool.false_ne_true, require_of hne, ok_bind, hdiv]
      rfl
    | true =>
      have hne : b.toInt ≠ 0 := fun h => hb (by rw [← Word.ofInt_toInt b, h]; rfl)
      rw [if_pos rfl]
      unfold signedQuotient
      split
      · rename_i hnone
        split at hnone
        · rename_i hcases
          -- 2^63 is clamped to the greatest word with a sign
          obtain ⟨ha, hb'⟩ := hcases.resolve_left hne
          show _ = Except.ok (some (clamp true
            ((high.toInt * 0x100000000 + low.toNat).tdiv b.toInt)))
          rw [ha, hb']
          rfl
        · cases hnone
      · rename_i q hsome
        split at hsome
        · cases hsome
        · cases hsome
          rfl

/-! ### Instructions that do not use the bus -/

section Local

variable {c : Cpu} {w : Word}

theorem shaped_setY (h : c.Shaped) (v : Word) : Cpu.Shaped { c with y := v } :=
  h.congr rfl rfl h.cwp_lt

theorem alu_eq (h : c.Shaped) {op : AluOp} {cc : Bool} (hop : w.op3 % 16 = aluNumber op)
    (hcc : setsIcc w.op3 = cc) : alu c w = .ok (c.operate (.alu op cc w.rs1 w.operand w.rd)) := by
  unfold alu
  rw [get_eq h, ok_bind, operand_eq h, ok_bind, hop, aluResult_eq, ok_bind]
  simp only
  rw [set_eq h, ok_bind, commit, hcc]
  rfl

theorem shift_eq (h : c.Shaped) {op : ShiftOp} (hop : shiftOp w.op3 = op) :
    shift c w = .ok (c.operate (.shift op w.rs1 w.operand w.rd)) := by
  have hlt : ∀ b : Word, (b % 32).toNat < 32 := fun b => by
    rw [UInt32.toNat_mod]
    exact Nat.mod_lt _ (by decide)
  unfold shift
  rw [get_eq h, ok_bind, operand_eq h, ok_bind, amount_of (hlt _), ok_bind, hop, set_eq h]
  rfl

theorem multiply_eq (h : c.Shaped) {signed cc : Bool}
    (hsigned : (w.op3 != 0x0a && w.op3 != 0x1a) = signed) (hcc : setsIcc w.op3 = cc) :
    multiply c w = .ok (c.operate (.mul signed cc w.rs1 w.operand w.rd)) := by
  unfold multiply
  rw [get_eq h, ok_bind, operand_eq h, ok_bind, hsigned]
  simp only
  rw [fits_product, ok_bind, set_eq (shaped_setY h _), ok_bind, commit, hcc]
  rfl

theorem divide_eq (h : c.Shaped) {signed cc : Bool}
    (hsigned : (w.op3 != 0x0e && w.op3 != 0x1e) = signed) (hcc : setsIcc w.op3 = cc) :
    divide c w = .ok (c.operate (.div signed cc w.rs1 w.operand w.rd)) := by
  unfold divide
  rw [get_eq h, ok_bind, operand_eq h, ok_bind, hsigned, quotient_eq, ok_bind]
  simp only [Cpu.operate, Cpu.divide]
  cases Arith.quotient signed c.y (c.get w.rs1) (c.operand w.operand) with
  | none => rfl
  | some p =>
    simp only
    rw [set_eq h, ok_bind, commit, hcc]
    rfl

theorem set_setIcc (c : Cpu) (f : Icc) (r : Reg) (v : Word) :
    (c.setIcc f).set r v = (c.set r v).setIcc f := by
  unfold Cpu.set
  split <;> rfl

theorem multiplyStep_eq (h : c.Shaped) :
    multiplyStep c w = .ok (c.operate (.mulscc w.rs1 w.operand w.rd)) := by
  have hstep : ∀ b : Word, Arith.mulStep c.psr.icc c.y (c.get w.rs1) (if c.y % 2 == 1 then b else 0) =
      Arith.mulStep c.psr.icc c.y (c.get w.rs1) b := by
    intro b
    unfold Arith.mulStep
    cases c.y % 2 == 1 <;> rfl
  have hread : addend c w = .ok (if c.y % 2 == 1 then c.operand w.operand else 0) := by
    unfold addend
    rw [operand_eq h]
    split <;> rfl
  have hshaped : ∀ y f, ({ c with y }.setIcc f).Shaped := fun _ _ => h.congr rfl rfl h.cwp_lt
  unfold multiplyStep
  rw [get_eq h, ok_bind, hread, ok_bind, hstep]
  simp only
  rw [set_eq (hshaped _ _), set_setIcc]
  rfl

theorem readState_eq (h : c.Shaped) {r : StateReg} (hr : readReg w.op3 = r)
    (hknown : w.op3 = 0x28 → w.rs1 = 0) : readState c w = .ok (c.operate (.readState r w.rd)) := by
  unfold readState
  rw [if_neg fun ⟨hop, hne⟩ => hne (hknown hop), set_eq h, hr]
  simp only [Cpu.operate, Cpu.supervised]
  split <;> rfl

theorem writeState_eq (h : c.Shaped) {r : StateReg} (hr : writeReg w.op3 = r)
    (hknown : w.op3 = 0x30 → w.rd = 0) :
    writeState c w = .ok (c.operate (.writeState w.rs1 w.operand r)) := by
  unfold writeState
  rw [if_neg fun ⟨hop, hne⟩ => hne (hknown hop), get_eq h, ok_bind, operand_eq h, ok_bind, hr,
    windowMask_eq]
  simp only [Cpu.operate, Cpu.supervised]
  split
  · cases r <;> rfl
  · rfl

theorem branch_eq (c : Cpu) (w : Word) :
    branch c w = .ok (c.operate (.branch (Cond.ofField w.cond) w.annul w.branchOffset)) := by
  unfold branch
  rw [gap_eq (by decide) (by decide)]
  rfl

theorem call_eq (h : c.Shaped) : call c w = .ok (c.operate (.call w.callOffset)) := by
  unfold call
  simp only
  rw [set_eq h]
  rfl

theorem jmpl_eq (h : c.Shaped) : jmpl c w = .ok (c.operate (.jmpl w.rs1 w.operand w.rd)) := by
  unfold jmpl
  rw [sum_eq h, ok_bind, set_eq h]
  rfl

theorem returnFromTrap_eq (h : c.Shaped) :
    returnFromTrap c w = .ok (c.operate (.rett w.rs1 w.operand)) := by
  unfold returnFromTrap
  have hnext : c.neighbour .up < c.windows := Cpu.neighbour_lt h .up
  rw [neighbour_eq h, ok_bind, isInvalid_eq, ok_bind, sum_eq h, ok_bind]
  simp only [Cpu.operate, Cpu.returnFromTrap]
  split
  · rfl
  · split
    · rfl
    · split
      · rfl
      · exact setCwp_eq hnext

theorem trapIf_eq (h : c.Shaped) :
    trapIf c w = .ok (c.operate (.trapIf (Cond.ofField w.cond) w.rs1 w.operand)) := by
  unfold trapIf
  rw [sum_eq h]
  simp only [Cpu.operate, Cpu.trapIf]
  split <;> rfl

theorem moveWindow_eq (h : c.Shaped) (t : Turn) :
    moveWindow c t w = .ok (c.moveWindow t w.rs1 w.operand w.rd) := by
  have hnext := Cpu.neighbour_lt h t
  unfold moveWindow Cpu.moveWindow
  rw [neighbour_eq h, ok_bind, isInvalid_eq, ok_bind, sum_eq h, ok_bind, setCwp_eq hnext, ok_bind,
    set_eq (h.setCwp hnext)]
  simp only
  split <;> rfl

/-! ### Dispatch -/

/-- An instruction without checks, with the word that stops the machine as a halt. -/
def unchecked (c : Cpu) (i : Instr) : Dialogue (Checked Cpu) :=
  if i.implemented then (c.execute i).map .ok else .done (.error .unimplemented)

theorem format2_eq (h : c.Shaped) : .done (format2 c w) = unchecked c (Instr.ofFormat2 w) := by
  unfold Instr.ofFormat2
  split
  case h_4 =>
    unfold format2
    split
    all_goals first | contradiction | rfl
  all_goals
    rename_i hop
    simp only [format2, hop]
  case h_1 => rfl
  case h_2 => exact congrArg Dialogue.done (branch_eq c w)
  case h_3 => exact congrArg Dialogue.done (set_eq h ..)

/-- An instruction that does not use the bus, if all its checks hold. -/
theorem done_eq {x : Checked Cpu} {i : Instr} (hx : x = .ok (c.operate i)) (hi : i.implemented)
    (hlocal : c.execute i = .done (c.operate i)) : .done x = unchecked c i := by
  rw [unchecked, if_pos hi, hlocal, hx]
  rfl

/-- The executor goes by groups of numbers, the decoder by single ones. -/
theorem format3_eq (h : c.Shaped) : .done (format3 c w) = unchecked c (Instr.ofFormat3 w) := by
  unfold Instr.ofFormat3
  split
  case h_38 =>
    -- a number that the decoder does not know is in no group
    unfold format3
    split
    all_goals first | contradiction | rfl
  all_goals
    rename_i hop
    simp only [format3, hop]
  case h_1 | h_2 | h_3 | h_4 | h_5 | h_6 | h_7 | h_12 | h_13 | h_14 | h_15 | h_16 =>
    exact done_eq (alu_eq h (by rw [hop]; rfl) (by rw [hop]; rfl)) rfl rfl
  case h_8 | h_9 | h_17 | h_18 =>
    exact done_eq (multiply_eq h (by rw [hop]; rfl) (by rw [hop]; rfl)) rfl rfl
  case h_10 | h_11 | h_19 | h_20 =>
    exact done_eq (divide_eq h (by rw [hop]; rfl) (by rw [hop]; rfl)) rfl rfl
  case h_21 => exact done_eq (multiplyStep_eq h) rfl rfl
  case h_22 | h_23 | h_24 => exact done_eq (shift_eq h (by rw [hop]; rfl)) rfl rfl
  case h_25 =>
    split
    · rename_i hr
      exact done_eq (readState_eq h (by rw [hop]; rfl) fun _ => hr) rfl rfl
    · rename_i hr
      exact congrArg Dialogue.done (if_pos ⟨hop, hr⟩)
  case h_26 | h_27 | h_28 =>
    have hnot : w.op3 ≠ 0x28 := by omega
    exact done_eq (readState_eq h (by rw [hop]; rfl) fun hy => absurd hy hnot) rfl rfl
  case h_29 =>
    split
    · rename_i hr
      exact done_eq (writeState_eq h (by rw [hop]; rfl) fun _ => hr) rfl rfl
    · rename_i hr
      exact congrArg Dialogue.done (if_pos ⟨hop, hr⟩)
  case h_30 | h_31 | h_32 =>
    have hnot : w.op3 ≠ 0x30 := by omega
    exact done_eq (writeState_eq h (by rw [hop]; rfl) fun hy => absurd hy hnot) rfl rfl
  case h_33 => exact done_eq (jmpl_eq h) rfl rfl
  case h_34 => exact done_eq (returnFromTrap_eq h) rfl rfl
  case h_35 => exact done_eq (trapIf_eq h) rfl rfl
  case h_36 | h_37 => exact done_eq (moveWindow_eq h _) rfl rfl

/-! ### Loads and stores -/

theorem readWord_eq {addr : Word} {next : Cpu → Word → Dialogue Cpu}
    {next' : Word → Dialogue (Checked Cpu)} (hnext : ∀ v, next' v = (next c v).map .ok) :
    readWord c addr next' = (c.readWord addr next).map .ok := by
  unfold readWord Cpu.readWord
  split
  · refine congrArg (Dialogue.read addr) (funext fun answer => ?_)
    cases answer with
    | ok v => exact hnext v
    | error e => rfl
  · rfl

theorem writeWord_eq {addr v : Word} {next : Cpu → Dialogue Cpu} {next' : Dialogue (Checked Cpu)}
    (hnext : next' = (next c).map .ok) : writeWord c addr v next' = (c.writeWord addr v next).map .ok := by
  unfold writeWord Cpu.writeWord
  split
  · refine congrArg (Dialogue.write addr v) (funext fun answer => ?_)
    cases answer with
    | ok _ => exact hnext
    | error e => rfl
  · rfl

theorem andThen_ok {α β : Type} (a : α) (next : α → Dialogue (Checked β)) :
    andThen (.ok a) next = next a := rfl

theorem byteShift_eq (addr : Word) : byteShift addr = .ok ((3 - (addr % 4).toNat) * 8) := by
  have hlt : (addr % 4).toNat < 4 := by
    rw [UInt32.toNat_mod]
    exact Nat.mod_lt _ (by decide)
  have hn : ((3 - ((addr % 4).toNat : Int)) * 8).toNat = (3 - (addr % 4).toNat) * 8 := by omega
  unfold byteShift
  rw [fits_unsigned (by omega) (by omega), ok_bind, fits_unsigned (by omega) (by omega), ok_bind, hn,
    amount_of (by omega)]

theorem halfShift_eq (addr : Word) : halfShift addr = .ok (if addr.isAligned then 16 else 0) :=
  amount_of (by split <;> decide)

theorem oddOf_eq (r : Reg) : oddOf r = .ok (Cpu.oddOf r) := by
  have hlt := r.isLt
  have hn : ((r.val : Int) / 2 * 2 + 1).toNat = r.val / 2 * 2 + 1 := by omega
  unfold oddOf
  rw [fits_unsigned (by omega) (by omega), ok_bind, hn]
  rfl

theorem load_eq (h : c.Shaped) {kind : LoadKind} (hload : isLoad w.op3)
    (hx : ∀ addr, access c w addr = (c.load kind addr w.rd).map .ok) :
    memory c w = unchecked c (.load kind w.alternate w.rs1 w.operand w.rd) := by
  have halternate : (!w.immediate && w.asi != 0 && isLoad w.op3) = w.alternate := by
    rw [hload, Bool.and_true]
    rfl
  unfold memory unchecked
  rw [halternate, sum_eq h, andThen_ok, hx]
  cases w.alternate <;> rfl

theorem store_eq (h : c.Shaped) {kind : StoreKind} (hload : isLoad w.op3 = false)
    (hx : ∀ addr, access c w addr = (c.store kind addr w.rd).map .ok) :
    memory c w = unchecked c (.store kind w.rd w.rs1 w.operand) := by
  unfold memory
  rw [hload, Bool.and_false, if_neg Bool.false_ne_true, sum_eq h, andThen_ok, hx]
  rfl

theorem memory_eq (h : c.Shaped) : memory c w = unchecked c (Instr.ofMemory w) := by
  have hset : ∀ (r : Reg) (v : Word), (c.set r v).Shaped := h.set
  unfold Instr.ofMemory
  split
  case h_12 =>
    unfold memory
    split
    · rfl
    · rw [sum_eq h, andThen_ok]
      unfold access
      split
      all_goals first | contradiction | rfl
  all_goals rename_i hop
  case h_1 =>
    refine load_eq h (by rw [hop]; rfl) fun addr => ?_
    simp only [access, Cpu.load, hop]
    exact readWord_eq fun v => congrArg Dialogue.done (set_eq h ..)
  case h_2 | h_9 =>
    refine load_eq h (by rw [hop]; rfl) fun addr => ?_
    simp only [access, Cpu.load, hop, byteShift_eq, andThen_ok]
    exact readWord_eq fun v => congrArg Dialogue.done (set_eq h ..)
  case h_3 | h_10 =>
    refine load_eq h (by rw [hop]; rfl) fun addr => ?_
    simp only [access, Cpu.load, hop, halfShift_eq, andThen_ok]
    exact readWord_eq fun v => congrArg Dialogue.done (set_eq h ..)
  case h_4 =>
    refine load_eq h (by rw [hop]; rfl) fun addr => ?_
    simp only [access, Cpu.load, hop, oddOf_eq, set_eq h, andThen_ok]
    refine readWord_eq fun high => readWord_eq fun low => ?_
    exact congrArg Dialogue.done (set_eq (hset ..) ..)
  case h_5 =>
    refine store_eq h (by rw [hop]; rfl) fun addr => ?_
    simp only [access, Cpu.store, hop, get_eq h, andThen_ok]
    exact writeWord_eq rfl
  case h_6 =>
    refine store_eq h (by rw [hop]; rfl) fun addr => ?_
    simp only [access, storePart, Cpu.store, hop, get_eq h, byteShift_eq, andThen_ok]
    exact readWord_eq fun old => writeWord_eq rfl
  case h_7 =>
    refine store_eq h (by rw [hop]; rfl) fun addr => ?_
    simp only [access, storePart, Cpu.store, hop, get_eq h, halfShift_eq, andThen_ok]
    exact readWord_eq fun old => writeWord_eq rfl
  case h_8 =>
    refine store_eq h (by rw [hop]; rfl) fun addr => ?_
    simp only [access, Cpu.store, hop, get_eq h, oddOf_eq, andThen_ok]
    exact writeWord_eq (writeWord_eq rfl)
  case h_11 =>
    refine load_eq h (by rw [hop]; rfl) fun addr => ?_
    simp only [access, Cpu.load, hop, set_eq h, byteShift_eq, andThen_ok]
    exact readWord_eq fun v => writeWord_eq rfl

/-! ### Steps -/

/-- **The checks of an instruction hold**, and its word is implemented for the
executor if it is for the decoder. -/
theorem exec_eq (h : c.Shaped) (w : Word) : exec c w = unchecked c (Instr.ofWord w) := by
  have hlt := w.op_lt
  unfold exec Instr.ofWord
  rw [gap_eq (by decide) (by decide), andThen_ok]
  split
  · rename_i hop
    rw [hop]
    exact format2_eq h
  · rename_i hop
    rw [hop]
    exact done_eq (call_eq h) rfl rfl
  · rename_i hop
    rw [hop]
    exact format3_eq h
  · rename_i hop
    rw [hop]
    exact memory_eq h
  · rename_i h0 h1 h2 h3
    have hnot : ¬ w.op = 0 ∧ ¬ w.op = 1 ∧ ¬ w.op = 2 ∧ ¬ w.op = 3 := ⟨h0, h1, h2, h3⟩
    omega

theorem spell_eq (w : Word) : spell w = .ok () := by
  have hsimm : w.simm13.toInt = (w.toNat : Int).bmod (1 <<< 13) :=
    Word.toInt_signExtend (by decide) (by decide) w
  have hle : -4096 ≤ w.simm13.toInt := by
    rw [hsimm, Int.bmod_def]
    omega
  unfold spell
  split
  · rw [fits_signed (by omega) (by omega)]
    rfl
  · rfl

theorem retire_eq (hs : c.Sound) : retire c = c.retire.map .ok := by
  unfold retire
  rw [clearZero_eq hs.toShaped, andThen_ok, Cpu.clearZero_of_zero hs.zero]

theorem take_eq (h : c.Shaped) (hp : c.pendingTrap = none) (w : Word) :
    take c w = (c.take w).map .ok := by
  have hs : c.clearZero.Sound := ⟨h.clearZero, Cpu.clearZero_zero c, fun t ht => by
    rw [show c.clearZero.pendingTrap = none from hp] at ht
    cases ht⟩
  have hskip : Cpu.Sound { c.clearZero with pendingAnnul := false } := hs.congr rfl rfl rfl rfl
  unfold take Cpu.take
  rw [clearZero_eq h, andThen_ok, spell_eq, andThen_ok]
  simp only
  split
  · rw [retire_eq hskip]
    unfold Cpu.retire
    simp only [show c.clearZero.pendingTrap = none from hp]
    rfl
  · rw [exec_eq h.clearZero]
    unfold unchecked Cpu.dispatch
    split
    · -- register 0 of the file is still zero when the instruction is done
      rw [Dialogue.map_bind, Dialogue.map, Dialogue.bind_map]
      refine congrArg (Dialogue.remark _) ?_
      exact ((Cpu.keeps_execute hs _).mono fun _ _ hk => retire_eq (hk.sound hs)).bind_congr
    · rfl

/-- **No check fails.** In a well-shaped processor a step is the same with its checks
and without, whatever the bus answers. -/
theorem step_eq (h : c.Shaped) : step c = c.step.map .ok := by
  unfold step Cpu.step
  split
  · refine congrArg (Dialogue.read c.pc) (funext fun answer => ?_)
    cases answer with
    | error e => rfl
    | ok word =>
      simp only
      cases hp : c.pendingTrap with
      | some t => rfl
      | none => exact take_eq h hp word
  · rfl

end Local

end Checked
end SparcIU
