/-
# What the retried instruction sees

After a window trap is served the trapped instruction is done again. Everything
it can see is what it was, whatever the bus answers, if there are at least three
windows. If there are only two, the window that an underflow fills has the
current window's outs for its ins, and the words that were read for these ins
are what the retried instruction finds in its outs.

Key theorems: `Cpu.peek_filled_out`, `Cpu.peek_filled_two`,
`Cpu.get_underflow_iff`, `retry_sees_iff`, `retry_two_windows`.
-/
import SparcIU.Proofs.Precision
import SparcIU.Proofs.Service

namespace SparcIU
namespace Cpu

open Window

variable {c c' : Cpu}

/-- With two windows, the outs are where the words for the ins went. -/
theorem peek_filled_out (h : c.Shaped) (h2 : c.windows = 2) (l : List Access) {k : Nat} (hk : k < 8) :
    (c.filled l).peek c.cwp (Reg.ofNat (8 + k)) =
      (l[8 + k]?.bind Access.loaded).getD (c.get (Reg.ofNat (8 + k))) := by
  have hout : (Reg.ofNat (8 + k)).val = 8 + k := Nat.mod_eq_of_lt (by omega)
  have hin : (Reg.ofNat (24 + k)).val = 24 + k := Nat.mod_eq_of_lt (by omega)
  have hback : above c.windows (above c.windows c.cwp) = c.cwp := by
    have := h.cwp_lt
    rw [h2] at this ⊢
    unfold above
    split <;> split <;> omega
  have hslot : Reg.saveArea[8 + k]? = some (Reg.ofNat (24 + k)) := by
    rw [← saveArea_slot _ (by omega), hin, show 24 + k - 16 = 8 + k by omega]
  -- the ins of the filled window are the outs of the one above it, which is the current one
  have hshared : ∀ x : Cpu, x.windows = c.windows →
      x.peek c.cwp (Reg.ofNat (8 + k)) = x.peek (above c.windows c.cwp) (Reg.ofNat (24 + k)) := by
    intro x hx
    rw [← peek_above (by omega) (by omega : (Reg.ofNat (8 + k)).val + 16 = (Reg.ofNat (24 + k)).val),
      hx, hback]
  rw [hshared _ (filled_windows l), peek_filled_above h l hslot, ← hshared _ aboveTrap_windows,
    peek_aboveTrap h h.cwp_lt fun he => absurd he (cwp_ne_below h), get_eq_peek h]

/-- With two windows, everything but the outs is out of sight. -/
theorem peek_filled_two (h : c.Shaped) (h2 : c.windows = 2) (l : List Access) {r : Reg}
    (hr : r.val < 8 ∨ 16 ≤ r.val) : (c.filled l).peek c.cwp r = c.get r := by
  have hlt := h.cwp_lt
  rw [get_eq_peek h]
  refine peek_filled h hlt (fun he => absurd he (cwp_ne_below h)) (fun r' hr' he => ?_) l
  rw [h2] at he hlt
  have := (place_above_two hlt hr').mp he
  have := r'.isLt
  omega

/-- After an underflow all registers are what they were, exactly if there are
three windows or what was read for the ins is what the outs hold. -/
theorem get_underflow_iff (h : c.Shaped) (hs : Served c c') {l : List Access}
    (hregs : c'.regs = (c.filled l).regs) : (∀ r, c'.get r = c.get r) ↔
      (c.windows = 2 → ∀ k < 8, ∀ v, l[8 + k]?.bind Access.loaded = some v →
        v = c.get (Reg.ofNat (8 + k))) := by
  simp only [get_underflow h hs hregs]
  constructor
  · intro hall h2 k hk v hv
    have hout := hall (Reg.ofNat (8 + k))
    rwa [peek_filled_out h h2 l hk, hv, Option.getD_some] at hout
  · intro houts r
    by_cases h2 : c.windows = 2
    · by_cases hr : r.val < 8 ∨ 16 ≤ r.val
      · exact peek_filled_two h h2 l hr
      · obtain ⟨k, hk, rfl⟩ : ∃ k < 8, r = Reg.ofNat (8 + k) := by
          refine ⟨r.val - 8, by omega, ?_⟩
          rw [show 8 + (r.val - 8) = r.val by omega]
          exact Fin.ext (Nat.mod_eq_of_lt r.isLt).symm
        rw [peek_filled_out h h2 l hk]
        cases hv : l[8 + k]?.bind Access.loaded with
        | none => rfl
        | some v => exact houts h2 k hk v hv
    · have := h.two_le
      exact peek_filled_three h (by omega) l r

end Cpu

/-- **What the retried instruction sees.** A step that ends in a window trap is
followed by a service that always succeeds and comes back to the instruction:
the program counters, the window, `%y`, the condition codes, the annul flag and
the queued target are what they were before the step. So are all registers,
exactly if there are more than two windows or every word that was read for an in
is what the out held that lies in its place. -/
theorem retry_sees_iff {σ : Type} {c c₁ : Cpu} {t : Trap} (h : c.Shaped)
    (hmode : c.config.trapMode = .internal) (hp : c.pendingTrap = none) (bus : Bus σ) (s : σ)
    (hstep : (c.step.hold bus s).1 = (.trapped t, c₁))
    (hk : t.kind = .windowOverflow ∨ t.kind = .windowUnderflow) (s₁ : σ) :
    let c₂ := (c₁.deliver.hold bus s₁).1.2
    (c₁.deliver.hold bus s₁).1.1 = none ∧
      (c₂.pc = c.pc ∧ c₂.npc = c.npc ∧ c₂.cwp = c.cwp ∧ c₂.psr.icc = c.psr.icc ∧ c₂.y = c.y ∧
        c₂.pendingAnnul = c.pendingAnnul ∧ c₂.branchTarget = c.branchTarget) ∧
      ((∀ r, c₂.get r = c.get r) ↔ (c.windows = 2 → ∀ k < 8, ∀ v,
        (c₁.deliver.transcript bus s₁)[8 + k]?.bind Access.loaded = some v →
          v = c.get (Reg.ofNat (8 + k)))) := by
  obtain rfl := (Cpu.step_windowTrap hp).hold bus s t c₁ hstep hk
  have h₁ : (c.clearZero.raise t.kind).Shaped := h.clearZero.congr rfl rfl h.cwp_lt
  have hget : ∀ r, (c.clearZero.raise t.kind).get r = c.get r := by
    intro r
    rw [Cpu.get_eq_peek h₁, Cpu.get_eq_peek h]
    exact Cpu.peek_clearZero c.cwp r
  simp only [← hget]
  rcases hk with hk | hk
  · obtain ⟨hnone, hs, -, hregs, hl⟩ := (Cpu.always_deliver_overflow h₁ hmode
      (congrArg some hk)).hold bus s₁
    refine ⟨hnone, ⟨hs.pc, hs.npc, hs.cwp, hs.icc, hs.y, hs.annul, hs.target⟩, ?_⟩
    refine iff_of_true (Cpu.get_overflow h₁ hs hregs) fun _ k _ v hv => ?_
    obtain ⟨a, ha, hv⟩ := Option.bind_eq_some_iff.mp hv
    rw [hl a (List.mem_of_getElem? ha)] at hv
    cases hv
  · obtain ⟨hnone, hs, -, hregs⟩ := (Cpu.always_deliver_underflow h₁ hmode
      (congrArg some hk)).hold bus s₁
    exact ⟨hnone, ⟨hs.pc, hs.npc, hs.cwp, hs.icc, hs.y, hs.annul, hs.target⟩,
      Cpu.get_underflow_iff h₁ hs hregs⟩

/-- Two windows after a reset, with a stack at 64 and 7 in the first out. -/
def twoWindows : Cpu :=
  ({ resetTwo with config := { windows := 2, trapMode := .internal } }.set Reg.fp 64).set
    Reg.o0 7

/-- A bus with `restore %o0, 0, %o0` at 0 and zero anywhere else. -/
def restoreBus : Bus Unit where
  read addr s := (.ok (if addr = 0 then 0x91ea2000 else 0), s)
  write _ _ s := (.ok (), s)

/-- The same processor with three windows. -/
def threeWindows : Cpu :=
  ({ resetTwo with
      regs := Array.replicate 56 0, config := { windows := 3, trapMode := .internal } }.set
    Reg.fp 64).set Reg.o0 7

/-- With three windows the retried restore sees the 7. -/
theorem retry_sees_three_windows :
    (threeWindows.step.hold restoreBus ()).1
        = (.trapped ⟨.windowUnderflow, 0, 4⟩, threeWindows.raise .windowUnderflow) ∧
      ∀ r, ((threeWindows.raise .windowUnderflow).deliver.hold restoreBus ()).1.2.get r
        = threeWindows.get r := by
  have hstep : (threeWindows.step.hold restoreBus ()).1
      = (.trapped ⟨.windowUnderflow, 0, 4⟩, threeWindows.raise .windowUnderflow) := by decide
  have hshape : threeWindows.Shaped := ⟨by decide, by decide, by decide, by decide⟩
  obtain ⟨-, -, hiff⟩ := retry_sees_iff hshape rfl rfl restoreBus () hstep (.inr rfl) ()
  exact ⟨hstep, hiff.mpr fun h2 => absurd h2 (by decide)⟩

/-- **Two windows are too few.** The service reads a zero for the in that lies in
the place of the first out, and the retried restore sees it instead of the 7. -/
theorem retry_two_windows :
    (twoWindows.step.hold restoreBus ()).1
        = (.trapped ⟨.windowUnderflow, 0, 4⟩, twoWindows.raise .windowUnderflow) ∧
      ((twoWindows.raise .windowUnderflow).deliver.hold restoreBus ()).1.1 = none ∧
      twoWindows.get Reg.o0 = 7 ∧
      ((twoWindows.raise .windowUnderflow).deliver.hold restoreBus ()).1.2.get Reg.o0 = 0 :=
  ⟨by decide, by decide +kernel, by decide, by decide +kernel⟩

end SparcIU
