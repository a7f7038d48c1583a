/-
# Multiplication and division over the integers

`%y` and a register together are a double word. A product fills one: it is the exact
product of the operands, as numbers without a sign or up to 2^64 with one. A quotient is
taken of one: it is the exact quotient of the integers if that is a word, and else the
nearest word (`Arith.quotient_eq_nearest`). The product of two words is never near the ends
of a double word with a sign, so a division takes back what a multiplication has done.

Key definitions: `Cpu.double`, `Arith.exactProduct`, `Arith.exactQuotient`, `Arith.nearest`.
Key theorems: `Arith.product_eq_exact`, `Arith.quotient_eq_nearest`,
`Arith.exactQuotient_of_product`, `multiply_divide_exact`.
-/
import SparcIU.Proofs.MachineArithmetic
import SparcIU.Proofs.Results

namespace SparcIU
namespace Arith

variable {signed : Bool} {v w : Word} {q : Int}

/-! ### Words and numbers, with a sign or without -/

theorem value_inj : value signed v = value signed w ↔ v = w := by
  cases signed with
  | false => exact Int.natCast_inj.trans UInt32.toNat_inj
  | true => exact Word.toInt_inj

theorem value_range (signed : Bool) (w : Word) :
    (range signed).1 ≤ value signed w ∧ value signed w ≤ (range signed).2 := by
  have hlt := w.toNat_lt
  have hbounds := w.toInt_bounds
  cases signed with
  | false =>
    show 0 ≤ (w.toNat : Int) ∧ (w.toNat : Int) ≤ 0xffffffff
    omega
  | true =>
    show -0x80000000 ≤ w.toInt ∧ w.toInt ≤ 0x7fffffff
    omega

/-- A number in the range of a word is that of its word. -/
theorem value_ofInt (hl : (range signed).1 ≤ q) (hr : q ≤ (range signed).2) :
    value signed (UInt32.ofInt q) = q := by
  cases signed with
  | false =>
    replace hl : 0 ≤ q := hl
    replace hr : q ≤ 0xffffffff := hr
    show ((UInt32.ofInt q).toNat : Int) = q
    rw [Word.toNat_ofInt, Int.emod_eq_of_lt hl (by omega)]
  | true =>
    replace hl : -0x80000000 ≤ q := hl
    replace hr : q ≤ 0x7fffffff := hr
    show Word.toInt (UInt32.ofInt q) = q
    rw [Word.toInt_ofInt, Int.bmod_eq_of_le (by omega) (by omega)]

/-- The number of a word nearest to an integer. -/
def nearest (signed : Bool) (q : Int) : Int :=
  if signed then max (-2 ^ 31) (min q (2 ^ 31 - 1)) else max 0 (min q (2 ^ 32 - 1))

theorem nearest_eq (signed : Bool) (q : Int) :
    nearest signed q = max (range signed).1 (min q (range signed).2) := by
  cases signed with
  | false => rfl
  | true => rfl

/-! ### Products -/

/-- The product of two words as numbers; with a sign, up to 2^64. -/
def exactProduct (signed : Bool) (a b : Word) : Int :=
  if signed then a.toInt * b.toInt % 2 ^ 64 else a.toNat * b.toNat

/-- The two words of a product are the product. -/
theorem product_eq_exact (signed : Bool) (a b : Word) :
    let p := product signed a b
    (p.1.toNat * 2 ^ 32 + p.2.toNat : Int) = exactProduct signed a b := by
  intro p
  have hp : p = _ := product_eq a b signed
  rw [hp, Word.toNat_ofInt, Word.toNat_ofInt]
  cases signed with
  | false =>
    have hmul := a.toNat_mul_lt b
    show (a.toNat * b.toNat : Int) / _ % _ * _ + (a.toNat * b.toNat : Int) % _ =
      (a.toNat * b.toNat : Int)
    rw [← Int.natCast_mul]
    omega
  | true =>
    show (a.toInt * b.toInt) / _ % _ * _ + (a.toInt * b.toInt) % _ = (a.toInt * b.toInt) % _
    omega

/-! ### Quotients -/

/-- The quotient of a double word by a word as numbers, rounded toward zero. -/
def exactQuotient (signed : Bool) (d : Nat) (b : Word) : Int :=
  if signed then ((d : Int).bmod (2 ^ 64)).tdiv b.toInt else (d / b.toNat : Nat)

theorem tdiv_eq_exact (signed : Bool) (high low b : Word) :
    (value signed high * 0x100000000 + low.toNat).tdiv (value signed b) =
      exactQuotient signed (high.toNat * 2 ^ 32 + low.toNat) b := by
  cases signed with
  | false => exact (Int.ofNat_tdiv ..).symm
  | true =>
    have hdividend : high.toInt * 0x100000000 + low.toNat =
        ((high.toNat * 2 ^ 32 + low.toNat : Nat) : Int).bmod (2 ^ 64) := by
      rw [← toInt_dividend, toInt64_eq_bmod, toNat_dividend]
      simp only [Nat.reducePow]
    unfold exactQuotient
    rw [if_pos rfl, ← hdividend]
    rfl

/-- **A quotient is the nearest word to the exact one**, and the flag says whether that
was a word. -/
theorem quotient_eq_nearest (signed : Bool) (high low : Word) {b : Word} (hb : b ≠ 0) :
    let q := exactQuotient signed (high.toNat * 2 ^ 32 + low.toNat) b
    quotient signed high low b =
      some (UInt32.ofInt (nearest signed q), decide (nearest signed q ≠ q)) := by
  intro q
  have hexact := tdiv_eq_exact signed high low b
  have hrange : (range signed).1 ≤ (range signed).2 := by
    cases signed <;> decide
  rw [quotient_eq_clamped high low hb, hexact, nearest_eq, clamped]
  by_cases hl : q < (range signed).1
  · have hmax : max (range signed).1 (min q (range signed).2) = (range signed).1 := by omega
    rw [if_pos hl, hmax, decide_eq_true (by omega)]
  · rw [if_neg hl]
    by_cases hr : (range signed).2 < q
    · have hmin : max (range signed).1 (min q (range signed).2) = (range signed).2 := by omega
      rw [if_pos hr, hmin, decide_eq_true (by omega)]
    · have hself : max (range signed).1 (min q (range signed).2) = q := by omega
      rw [if_neg hr, hself, decide_eq_false (by omega)]

/-- The quotient of a product by one of its factors is the other one. -/
theorem exactQuotient_of_product {d : Nat} {a b : Word} (hb : b ≠ 0)
    (hd : (d : Int) = exactProduct signed a b) : exactQuotient signed d b = value signed a := by
  cases signed with
  | false =>
    replace hd : d = a.toNat * b.toNat := Int.ofNat_inj.mp (hd.trans (Int.natCast_mul ..).symm)
    have hpos : 0 < b.toNat := Nat.pos_of_ne_zero fun h => hb (UInt32.toNat_inj.mp h)
    show ((d / b.toNat : Nat) : Int) = a.toNat
    rw [hd, Nat.mul_div_cancel _ hpos]
  | true =>
    replace hd : (d : Int) = a.toInt * b.toInt % (2 ^ 64 : Nat) := hd
    have hmul := a.natAbs_mul_le b
    have hne : b.toInt ≠ 0 := fun h => hb (Word.toInt_inj.mp h)
    unfold exactQuotient
    rw [if_pos rfl, hd, Int.emod_bmod, Int.bmod_eq_of_le (by omega) (by omega), Int.mul_tdiv_cancel _ hne]
    rfl

end Arith

/-! ### Instructions -/

namespace Cpu

/-- The double word of `%y` and a register. -/
def double (c : Cpu) (r : Reg) : Nat := c.y.toNat * 2 ^ 32 + (c.get r).toNat

/-- An instruction that took `c` to `c'` had the result `v`: its register has it, unless that
is `%g0`, no other one has changed, and the flags are those of `v` if it sets them. -/
structure Yields (c c' : Cpu) (rd : Reg) (v : Word) (cc overflow : Bool) : Prop where
  result : rd ≠ 0 → c'.get rd = v
  others : ∀ r, r = 0 ∨ r ≠ rd → c'.get r = c.get r
  flags : c'.psr.icc =
    if cc then ⟨decide (v.toInt < 0), decide (v = 0), overflow, false⟩ else c.psr.icc

theorem yields_withResult {c : Cpu} (h : c.Shaped) (rd : Reg) (v : Word) (cc overflow : Bool)
    (y : Word) : c.Yields
      (c.withResult rd v (if cc then .ofResult v overflow false else c.psr.icc) y) rd v cc overflow := by
  refine ⟨fun hrd => get_withResult_self h hrd .., fun r hr => get_withResult_of_ne h hr .., ?_⟩
  rw [withResult_icc, Icc.ofResult_eq]

section Steps

variable {σ : Type} {bus : Bus σ} {s : σ} {c : Cpu} {signed cc : Bool} {rs1 rd : Reg}
  {src : Operand}

/-- A division by anything but zero completes with the word nearest to the quotient. -/
theorem step_div_nearest (h : c.Shaped) (hp : c.pendingTrap = none)
    (hannul : c.pendingAnnul = false) (hi : c.atHand bus s = some (.div signed cc rs1 src rd))
    (hb : c.operand src ≠ 0) :
    let q := Arith.exactQuotient signed (c.double rs1) (c.operand src)
    ∃ c' v, (c.step.hold bus s).1 = (.completed, c') ∧ Arith.value signed v = Arith.nearest signed q ∧
      c.Yields c' rd v cc (decide (Arith.nearest signed q ≠ q)) ∧ c'.y = c.y := by
  intro q
  have hstep := step_div hp hannul hi
  rw [Arith.quotient_eq_nearest signed c.y (c.get rs1) hb] at hstep
  refine ⟨_, _, hstep, ?_, yields_withResult h .., rfl⟩
  have hrange : (Arith.range signed).1 ≤ (Arith.range signed).2 := by
    cases signed <;> decide
  show Arith.value signed (UInt32.ofInt (Arith.nearest signed q)) = Arith.nearest signed q
  rw [Arith.nearest_eq]
  apply Arith.value_ofInt
  · omega
  · omega

end Steps

end Cpu

/-- **Multiplication and division are exact.** Let no trap be pending and no skip be owed,
and let a multiplication or a division of either kind be at hand. A multiplication completes
with the exact product in `%y` and its register. A division by anything but zero completes
with the word nearest to the exact quotient, which is rounded toward zero, and its overflow
flag says that the two differ; `%y` is as before. A division by zero raises its trap and
does nothing else. So the product of two words, divided by one that is not zero, gives the
other back and does not overflow. -/
theorem multiply_divide_exact {σ : Type} (bus : Bus σ) {c : Cpu} (h : c.Shaped)
    (hp : c.pendingTrap = none) (hannul : c.pendingAnnul = false) (s : σ) (signed cc : Bool)
    (rs1 rd : Reg) (src : Operand) :
    let a := c.get rs1
    let b := c.operand src
    let q := Arith.exactQuotient signed (c.double rs1) b
    (c.atHand bus s = some (.mul signed cc rs1 src rd) →
      ∃ c' low, (c.step.hold bus s).1 = (.completed, c') ∧ c.Yields c' rd low cc false ∧
        (c'.y.toNat * 2 ^ 32 + low.toNat : Int) = Arith.exactProduct signed a b) ∧
    (c.atHand bus s = some (.div signed cc rs1 src rd) →
      (b ≠ 0 → ∃ c' v, (c.step.hold bus s).1 = (.completed, c') ∧
        Arith.value signed v = Arith.nearest signed q ∧
        c.Yields c' rd v cc (decide (Arith.nearest signed q ≠ q)) ∧ c'.y = c.y) ∧
      (b = 0 → (c.step.hold bus s).1 = (.trapped ⟨.divisionByZero, c.pc, c.npc⟩,
        { c with pendingTrap := some .divisionByZero, regs := c.regs.setIfInBounds 0 0 })) ∧
      ∀ x, b ≠ 0 → (c.double rs1 : Int) = Arith.exactProduct signed x b →
        ∃ c', (c.step.hold bus s).1 = (.completed, c') ∧ c.Yields c' rd x cc false ∧
          c'.y = c.y) := by
  intro a b q
  refine ⟨fun hi => ?_, fun hi => ⟨Cpu.step_div_nearest h hp hannul hi, fun hb => ?_,
    fun x hb hx => ?_⟩⟩
  · exact ⟨_, _, Cpu.step_mul hp hannul hi, Cpu.yields_withResult h ..,
      Arith.product_eq_exact signed a b⟩
  · rw [Cpu.step_div hp hannul hi]
    have hnone : Arith.quotient signed c.y a b = none := by
      rw [hb, Arith.quotient_zero]
    rw [hnone]
    rfl
  · have hq : q = Arith.value signed x := Arith.exactQuotient_of_product hb hx
    have hnearest : Arith.nearest signed q = q := by
      have hrange := Arith.value_range signed x
      rw [Arith.nearest_eq]
      omega
    obtain ⟨c', v, hstep, hv, hyields, hy⟩ := Cpu.step_div_nearest h hp hannul hi hb
    obtain rfl : v = x := Arith.value_inj.mp (hv.trans (hnearest.trans hq))
    rw [decide_eq_false (fun hne => hne hnearest)] at hyields
    exact ⟨c', hstep, hyields, hy⟩

/-- A bus with `smulcc %g1, %g2, %g3` at 0 and `sdivcc %g3, %g2, %g4` at 4. -/
def productBus : Bus Unit where
  read addr s := (.ok (if addr = 0 then 0x86d84002 else 0x88f8c002), s)
  write _ _ s := (.ok (), s)

/-- The product of -2^31 and -1 is no word with a sign. Divided by -1 it is -2^31 again, and
nothing is clamped; the quotient of -2^63 by -1 is. -/
theorem multiply_divide_exact_extremes :
    let c := (resetTwo.set 1 0x80000000).set 2 0xffffffff
    let d := { c with pc := 4, npc := 8, y := 0x80000000 }
    (∃ c₁ c₂, (c.step.hold productBus ()).1 = (.completed, c₁) ∧ c₁.y = 0 ∧ c₁.get 3 = 0x80000000 ∧
      (c₁.step.hold productBus ()).1 = (.completed, c₂) ∧ c₁.Yields c₂ 4 0x80000000 true false) ∧
    ∃ d', (d.step.hold productBus ()).1 = (.completed, d') ∧ d.Yields d' 4 0x7fffffff true true := by
  intro c d
  have hc : c.Shaped := ⟨by decide, by decide, by decide, by decide⟩
  have hd : d.Shaped := ⟨by decide, by decide, by decide, by decide⟩
  constructor
  · obtain ⟨c₁, low, hstep, -, -⟩ :=
      (multiply_divide_exact productBus hc rfl rfl () true true 1 3 (.reg 2)).1 (by decide)
    obtain rfl : (c.step.hold productBus ()).1.2 = c₁ := congrArg Prod.snd hstep
    have hc₁ : (c.step.hold productBus ()).1.2.Shaped := ⟨by decide, by decide, by decide, by decide⟩
    obtain ⟨c₂, hstep₂, hyields, -⟩ :=
      ((multiply_divide_exact productBus hc₁ (by decide) (by decide) () true true 3 4 (.reg 2)).2 (by decide)).2.2
        0x80000000 (by decide) (by decide)
    exact ⟨_, c₂, hstep, by decide, by decide, hstep₂, hyields⟩
  · obtain ⟨d', v, hstep, hv, hyields, -⟩ :=
      ((multiply_divide_exact productBus hd rfl rfl () true true 3 4 (.reg 2)).2 (by decide)).1
        (by decide)
    have hvalue : Arith.value true v = Arith.value true 0x7fffffff := hv.trans (by decide)
    obtain rfl : v = 0x7fffffff := Arith.value_inj.mp hvalue
    have hclamped : Arith.nearest true (Arith.exactQuotient true (d.double 3) (d.operand (.reg 2))) ≠
        Arith.exactQuotient true (d.double 3) (d.operand (.reg 2)) := by decide
    rw [decide_eq_true hclamped] at hyields
    exact ⟨d', hstep, hyields⟩

end SparcIU
