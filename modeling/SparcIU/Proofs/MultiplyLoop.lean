/-
# The multiplication loop

A multiply step halves the double word of its register and `%y`, and if that was odd adds
the operand on top (`Arith.halve`). So 32 of them take a word in `%y` apart from below, and
add the operand once for each bit, as often as that bit is worth; the product is then in
place but for a factor of two, and a last step with `%g0` takes that away. All of this is so
because the register stays below 2^31: then the sign and the overflow flag, which here is the
carry out of the sum, are both clear, and no step shifts a bit in. This is what the bound on
the operand is for (`Cpu.Multiplying`).

Key definitions: `Arith.halve`, `Cpu.SameBut`, `Cpu.Multiplying`, `Offers`.
Key theorems: `Arith.foldl_halve`, `Arith.mulStep_eq_halve`, `Cpu.Multiplying.step`,
`Cpu.Multiplying.steps`, `mulscc_multiplies`.
-/
import Mathlib.Tactic.Ring
import SparcIU.Proofs.ExactArithmetic
import SparcIU.Proofs.PendingTrap

namespace SparcIU
namespace Arith

/-! ### The steps on numbers -/

/-- A multiply step on the double word `d`, with operand `b`. -/
def halve (d b : Nat) : Nat := d / 2 + d % 2 * b * 2 ^ 32

/-- After `k` steps the low `k` bits of the double word have been multiplied. Their product
lies high enough that the bit at hand is still one of the multiplier. -/
theorem foldl_halve (a b : Nat) {k : Nat} (hk : k ≤ 32) :
    (List.replicate k b).foldl halve a = a / 2 ^ k + a % 2 ^ k * b * 2 ^ (33 - k) := by
  induction k with
  | zero => simp [Nat.mod_one]
  | succ k ih =>
    have hpow : 2 ^ (33 - k) = 2 * 2 ^ (32 - k) := by
      rw [← Nat.pow_succ']
      congr 1
      omega
    have htop : 2 ^ 32 = 2 ^ k * 2 ^ (32 - k) := by
      rw [← Nat.pow_add]
      congr 1
      omega
    have hsub : 33 - (k + 1) = 32 - k := by omega
    have hdouble : a / 2 ^ k + a % 2 ^ k * b * 2 ^ (33 - k) =
        a / 2 ^ k + 2 * (a % 2 ^ k * b * 2 ^ (32 - k)) := by
      rw [hpow]
      ring
    rw [List.replicate_succ', List.foldl_append, ih (by omega), List.foldl_cons, List.foldl_nil]
    calc halve (a / 2 ^ k + a % 2 ^ k * b * 2 ^ (33 - k)) b
        = a / 2 ^ k / 2 + a % 2 ^ k * b * 2 ^ (32 - k) + a / 2 ^ k % 2 * b * 2 ^ 32 := by
          unfold halve
          rw [hdouble, Nat.add_mul_div_left _ _ Nat.two_pos, Nat.add_mul_mod_self_left]
      _ = a / 2 ^ k / 2 + (a % 2 ^ k + 2 ^ k * (a / 2 ^ k % 2)) * b * 2 ^ (32 - k) := by
          rw [htop]
          ring
      _ = a / 2 ^ (k + 1) + a % 2 ^ (k + 1) * b * 2 ^ (33 - (k + 1)) := by
          rw [Nat.div_div_eq_div_mul, ← Nat.pow_succ, ← Nat.mod_pow_succ, hsub]

/-- **A multiply step halves.** With half a word in the register and at most a quarter of one
to add, the sum is half a word again, so there is no carry and no sign. -/
theorem mulStep_eq_halve {f : Icc} {y a b : Word} (hf : f.n = f.v) (ha : a.toNat < 2 ^ 31)
    (hb : b.toNat ≤ 2 ^ 30) :
    let x := mulStep f y a b
    x.1.toNat * 2 ^ 32 + x.2.1.toNat = halve (a.toNat * 2 ^ 32 + y.toNat) b.toNat ∧
      x.1.toNat < 2 ^ 31 ∧ x.2.2.n = x.2.2.v := by
  intro x
  have hy := y.toNat_lt
  have h2 : (2 : Word).toNat = 2 := rfl
  have hhalf : (0x80000000 : Word).toNat = 2 ^ 31 := rfl
  have hshifted : (a / 2).toNat = a.toNat / 2 := UInt32.toNat_div ..
  have haddend : (if y % 2 == 1 then b else 0 : Word).toNat = y.toNat % 2 * b.toNat := by
    have hodd : (y % 2 == 1) = decide (y.toNat % 2 = 1) := by
      rw [Bool.eq_iff_iff, beq_iff_eq, decide_eq_true_iff, ← UInt32.toNat_inj, UInt32.toNat_mod]
      exact Iff.rfl
    rw [hodd]
    rcases Nat.mod_two_eq_zero_or_one y.toNat with h | h
    · simp [h]
    · simp [h]
  have hshift : a / 2 + (if f.n != f.v then 0x80000000 else 0) = a / 2 := by
    rw [hf, bne_self_eq_false, if_neg Bool.false_ne_true, UInt32.add_zero]
  have hle : y.toNat % 2 * b.toNat ≤ 1 * b.toNat := Nat.mul_le_mul_right _ (by omega)
  have hfirst : x.1.toNat = a.toNat / 2 + y.toNat % 2 * b.toNat := by
    show (a / 2 + (if f.n != f.v then 0x80000000 else 0) + _ : Word).toNat = _
    rw [hshift, UInt32.toNat_add, hshifted, haddend]
    omega
  have hsecond : x.2.1.toNat = y.toNat / 2 + a.toNat % 2 * 2 ^ 31 := by
    show (y / 2 + (a % 2) * 0x80000000).toNat = _
    rw [UInt32.toNat_add, UInt32.toNat_div, UInt32.toNat_mul, UInt32.toNat_mod, h2, hhalf]
    omega
  refine ⟨?_, by omega, ?_⟩
  · have hdiv : (a.toNat * 2 ^ 32 + y.toNat) / 2 = a.toNat * 2 ^ 31 + y.toNat / 2 := by omega
    have hmod : (a.toNat * 2 ^ 32 + y.toNat) % 2 = y.toNat % 2 := by omega
    rw [hfirst, hsecond, halve, hdiv, hmod]
    generalize y.toNat % 2 * b.toNat = addend
    omega
  · have hn : ¬ 0x80000000 ≤ x.1 := by
      rw [UInt32.le_iff_toNat_le, hhalf]
      omega
    have hv : ¬ x.1 < a / 2 + (if f.n != f.v then 0x80000000 else 0) := by
      rw [hshift, UInt32.lt_iff_toNat_lt, hshifted]
      omega
    exact (decide_eq_false hn).trans (decide_eq_false hv).symm

end Arith

/-! ### What a row of instructions finds -/

/-- The instructions of a list are at hand, each where the steps of those before it lead. -/
def Offers {σ : Type} (bus : Bus σ) : List Instr → Cpu → σ → Prop
  | [], _, _ => True
  | i :: l, c, s =>
    c.atHand bus s = some i ∧ Offers bus l (c.step.hold bus s).1.2 (c.step.hold bus s).2

instance Offers.decidable {σ : Type} (bus : Bus σ) :
    (l : List Instr) → (c : Cpu) → (s : σ) → Decidable (Offers bus l c s)
  | [], _, _ => inferInstanceAs (Decidable True)
  | _ :: l, c, s =>
    have := Offers.decidable bus l (c.step.hold bus s).1.2 (c.step.hold bus s).2
    inferInstanceAs (Decidable (_ ∧ _))

namespace Cpu

open Window

variable {c c' c'' : Cpu} {p : Reg}

/-- The two processors differ in the register `p`, in the flags, in `%y` and in where control
is, and in nothing else; no register of another window has changed either. -/
structure SameBut (p : Reg) (c c' : Cpu) : Prop where
  config : c'.config = c.config
  psr : c'.psr = { c.psr with icc := c'.psr.icc }
  wim : c'.wim = c.wim
  tbr : c'.tbr = c.tbr
  regs : ∀ w < c.windows, ∀ r, place c.windows w r ≠ place c.windows c.cwp p →
    c'.peek w r = c.peek w r

theorem SameBut.refl (p : Reg) (c : Cpu) : SameBut p c c := ⟨rfl, rfl, rfl, rfl, fun _ _ _ _ => rfl⟩

theorem SameBut.cwp (h : SameBut p c c') : c'.cwp = c.cwp := by
  unfold Cpu.cwp
  rw [h.psr]

theorem SameBut.windows (h : SameBut p c c') : c'.windows = c.windows := by
  unfold Cpu.windows
  rw [h.config]

theorem SameBut.trans (h : SameBut p c c') (h' : SameBut p c' c'') : SameBut p c c'' := by
  refine ⟨h'.config.trans h.config, ?_, h'.wim.trans h.wim, h'.tbr.trans h.tbr, fun w hw r hr => ?_⟩
  · rw [h'.psr, h.psr]
  · have hregs' := h'.regs w
    rw [h.windows, h.cwp] at hregs'
    rw [hregs' hw r hr, h.regs w hw r hr]

/-- In the current window all registers but `p` are the same. -/
theorem SameBut.get (h : SameBut p c c') (hc : c.Shaped) (hc' : c'.Shaped) {r : Reg} (hr : r ≠ p) :
    c'.get r = c.get r := by
  have hplace : place c.windows c.cwp r ≠ place c.windows c.cwp p :=
    fun he => hr ((place_inj hc.two_le).mp he)
  rw [get_eq_peek hc', h.cwp, h.regs _ hc.cwp_lt _ hplace, get_eq_peek hc]

theorem SameBut.operand (h : SameBut p c c') (hc : c.Shaped) (hc' : c'.Shaped) {src : Operand}
    (hsrc : src ≠ .reg p) : c'.operand src = c.operand src := by
  cases src with
  | reg r => exact h.get hc hc' fun hr => hsrc (congrArg _ hr)
  | imm v => rfl

theorem sameBut_withResult (h : c.Shaped) (p : Reg) (v : Word) (f : Icc) (y : Word) :
    SameBut p c (c.withResult p v f y) := by
  refine ⟨?_, rfl, ?_, ?_, fun w hw r hr => ?_⟩
  · exact set_config ..
  · exact set_wim ..
  · exact set_tbr ..
  · show (c.clearZero.set p v).peek w r = c.peek w r
    rw [peek_set_of_ne h.clearZero hw v (.inr (Ne.symm hr)), peek_clearZero]

/-! ### The steps of the processor -/

/-- The double word that the loop works on: the sum in `p`, and under it what is left of the
multiplier. -/
def sumAndMultiplier (c : Cpu) (p : Reg) : Nat := (c.get p).toNat * 2 ^ 32 + c.y.toNat

/-- In the loop: nothing that was not to change has changed since `c`, and the sum in `p` is
half a word, so that the sign of the next one is right. -/
structure Multiplying (p : Reg) (c c' : Cpu) : Prop where
  shaped : c'.Shaped
  ready : c'.pendingTrap = none ∧ c'.pendingAnnul = false
  same : SameBut p c c'
  below : (c'.get p).toNat < 2 ^ 31
  sign : c'.psr.icc.n = c'.psr.icc.v

section Loop

variable {σ : Type} {bus : Bus σ} {s : σ}

/-- A multiply step in the loop halves the double word and stays in the loop. -/
theorem Multiplying.step (h : Multiplying p c c') (hc : c.Shaped) (hp : p ≠ 0) {src : Operand}
    (hsrc : src ≠ .reg p) (hb : (c.operand src).toNat ≤ 2 ^ 30)
    (hi : c'.atHand bus s = some (.mulscc p src p)) :
    ∃ c'', (c'.step.hold bus s).1 = (.completed, c'') ∧ Multiplying p c c'' ∧
      c''.sumAndMultiplier p = Arith.halve (c'.sumAndMultiplier p) (c.operand src).toNat := by
  have hstep := step_mulscc h.ready.1 h.ready.2 hi
  rw [h.same.operand hc h.shaped hsrc] at hstep
  let x := Arith.mulStep c'.psr.icc c'.y (c'.get p) (c.operand src)
  obtain ⟨hdouble, hbelow, hsign⟩ := Arith.mulStep_eq_halve (y := c'.y) h.sign h.below hb
  have hget : (c'.withResult p x.1 x.2.2 x.2.1).get p = x.1 := get_withResult_self h.shaped hp ..
  refine ⟨_, hstep, ⟨h.shaped.withResult .., ⟨?_, ?_⟩, ?_, ?_, hsign⟩, ?_⟩
  · exact (withResult_pendingTrap ..).trans h.ready.1
  · exact (withResult_pendingAnnul ..).trans h.ready.2
  · exact h.same.trans (sameBut_withResult h.shaped ..)
  · rw [hget]
    exact hbelow
  · unfold sumAndMultiplier
    rw [hget]
    exact hdouble

/-- **A row of multiply steps.** Each of them completes, and the double word is halved with
one operand after the other. -/
theorem Multiplying.steps (hc : c.Shaped) (hp : p ≠ 0) {l : List Operand}
    (hl : ∀ src ∈ l, src ≠ .reg p ∧ (c.operand src).toNat ≤ 2 ^ 30) (h : Multiplying p c c')
    (hi : Offers bus (l.map fun src => .mulscc p src p) c' s) :
    ∃ c'', ((c'.steps l.length).hold bus s).1 = (List.replicate l.length .completed, c'') ∧
      Multiplying p c c'' ∧ c''.sumAndMultiplier p =
        (l.map fun src => (c.operand src).toNat).foldl Arith.halve (c'.sumAndMultiplier p) := by
  induction l generalizing c' s with
  | nil => exact ⟨c', rfl, h, rfl⟩
  | cons src l ih =>
    obtain ⟨⟨hsrc, hb⟩, hl⟩ := List.forall_mem_cons.mp hl
    obtain ⟨hfirst, hrest⟩ := hi
    obtain ⟨c₁, hstep, h₁, hdouble₁⟩ := h.step hc hp hsrc hb hfirst
    rw [hstep] at hrest
    obtain ⟨c₂, hsteps, h₂, hdouble₂⟩ := ih hl h₁ hrest
    refine ⟨c₂, ?_, h₂, ?_⟩
    · rw [List.length_cons, Cpu.steps, Dialogue.hold_bind, hstep]
      show (((Cpu.steps l.length c₁).map _).hold bus _).1 = _
      rw [Dialogue.hold_map, hsteps]
      rfl
    · rw [hdouble₂, hdouble₁]
      rfl

end Loop

end Cpu

/-- **The loop multiplies.** Let `p` be a register that is zero, let the operand be an
immediate or another register with a value of at most 2^30, let the sign and the overflow flag
be clear, and let 32 multiply steps of `p` with the operand be at hand, and then one with
`%g0`. All 33 complete. Then `p` and `%y` hold the product of what `%y` held and the operand,
and nothing else has changed but the flags and where control is. -/
theorem mulscc_multiplies {σ : Type} (bus : Bus σ) {c : Cpu} (hc : c.Shaped)
    (htrap : c.pendingTrap = none) (hannul : c.pendingAnnul = false) (s : σ) {p : Reg} (hp : p ≠ 0)
    {src : Operand} (hsrc : src ≠ .reg p) (hb : (c.operand src).toNat ≤ 2 ^ 30)
    (hzero : c.get p = 0) (hn : c.psr.icc.n = false) (hv : c.psr.icc.v = false)
    (hi : Offers bus (List.replicate 32 (.mulscc p src p) ++ [.mulscc p (.reg 0) p]) c s) :
    ∃ c', ((c.steps 33).hold bus s).1 = (List.replicate 33 .completed, c') ∧
      (c'.get p).toNat * 2 ^ 32 + c'.y.toNat = c.y.toNat * (c.operand src).toNat ∧
      c.SameBut p c' := by
  have hstart : Cpu.Multiplying p c c := by
    refine ⟨hc, ⟨htrap, hannul⟩, .refl p c, ?_, hn.trans hv.symm⟩
    rw [hzero]
    decide
  let l : List Operand := List.replicate 32 src ++ [.reg 0]
  have hl : ∀ src' ∈ l, src' ≠ .reg p ∧ (c.operand src').toNat ≤ 2 ^ 30 := by
    intro src' hsrc'
    rcases List.mem_append.mp hsrc' with h | h
    · obtain rfl := List.eq_of_mem_replicate h
      exact ⟨hsrc, hb⟩
    · obtain rfl := List.mem_singleton.mp h
      exact ⟨fun he => hp (Operand.reg.inj he).symm, Nat.zero_le _⟩
  obtain ⟨c', hsteps, h', hdouble⟩ := hstart.steps (l := l) hc hp hl hi
  refine ⟨c', hsteps, ?_, h'.same⟩
  have hmap : (l.map fun src => (c.operand src).toNat) =
      List.replicate 32 (c.operand src).toNat ++ [0] := rfl
  have hbefore : c.sumAndMultiplier p = c.y.toNat := by
    unfold Cpu.sumAndMultiplier
    rw [hzero]
    exact Nat.zero_add _
  rw [hmap, List.foldl_append, hbefore, Arith.foldl_halve _ _ (Nat.le_refl 32)] at hdouble
  -- all bits of the multiplier are used up, and the product is there twice
  rw [Nat.div_eq_of_lt c.y.toNat_lt, Nat.mod_eq_of_lt c.y.toNat_lt] at hdouble
  rw [List.foldl_cons, List.foldl_nil, Arith.halve, Nat.mul_zero, Nat.zero_mul, Nat.add_zero,
    Nat.zero_add] at hdouble
  exact hdouble.trans (Nat.mul_div_cancel _ Nat.two_pos)

/-- A bus with 32 words `mulscc %g3, %g2, %g3` from 0 on, and then `mulscc %g3, %g0, %g3`. -/
def loopBus : Bus Unit where
  read addr s := (.ok (if addr < 128 then 0x8720c002 else 0x8720c000), s)
  write _ _ s := (.ok (), s)

/-- The greatest multiplier and the greatest operand, in a register. -/
def beforeLoop : Cpu := { resetTwo.set 2 0x40000000 with y := 0xffffffff }

theorem mulscc_multiplies_greatest :
    beforeLoop.get 3 = 0 ∧ Offers loopBus
      (List.replicate 32 (.mulscc 3 (.reg 2) 3) ++ [.mulscc 3 (.reg 0) 3]) beforeLoop () ∧
    ∃ c', ((beforeLoop.steps 33).hold loopBus ()).1 = (List.replicate 33 .completed, c') ∧
      (c'.get 3).toNat * 2 ^ 32 + c'.y.toNat = (2 ^ 32 - 1) * 2 ^ 30 ∧ beforeLoop.SameBut 3 c' := by
  have hoffers : Offers loopBus
      (List.replicate 32 (.mulscc 3 (.reg 2) 3) ++ [.mulscc 3 (.reg 0) 3]) beforeLoop () := by
    decide
  obtain ⟨c', hsteps, hproduct, hsame⟩ := mulscc_multiplies loopBus
    ⟨by decide, by decide, by decide, by decide⟩ rfl rfl () (by decide) (by decide) (by decide)
    (by decide) rfl rfl hoffers
  exact ⟨by decide, hoffers, c', hsteps, hproduct.trans (by decide), hsame⟩

end SparcIU
