/-
# Handlers that return

A vectored delivery and a handler of two instructions, a jump and a return from
the trap, lead back to where the trap came from. The delivery keeps the two
addresses in locals of the next lower window and the mode in a bit of its own;
the jump and the return load the two addresses back, one behind the other, and
the return goes back up a window and puts the mode back. So nothing is lost but
what a trap leaves behind: its number, the old mode and the two locals
(`Cpu.ResumedAt`). A handler can also go on after the trapped instruction.

Key definitions: `Cpu.atHandler`, `Cpu.ResumedAt`, `WayBack`.
Key theorems: `Cpu.hold_deliver_vectored`, `Cpu.step_jump`, `Cpu.step_return`,
`Cpu.hold_handler`, `Cpu.resumedAt_returned`, `handler_return`.
-/
import SparcIU.Proofs.DelayedTransfer
import SparcIU.Proofs.Service
import Mathlib.Tactic.SplitIfs

namespace SparcIU

/-- The second operand of a jump to a register. -/
def Operand.IsZero (src : Operand) : Prop := src = .imm 0 ∨ src = .reg 0

namespace Cpu

open Window

variable {c e : Cpu} {t : TrapKind} {σ : Type} {bus : Bus σ} {s : σ}

/-! ### Entry -/

/-- The processor after a vectored delivery. -/
def atHandler (c : Cpu) (t : TrapKind) : Cpu := { (c.enterTrap t).vector with pendingTrap := none }

theorem hold_deliver_vectored (hmode : c.config.trapMode = .vectored) (hp : c.pendingTrap = some t)
    (bus : Bus σ) (s : σ) :
    (c.deliver.hold bus s).1 = (none, c.atHandler t) := by
  have hroutine : c.config.trapMode.routine t = some .vector := by
    rw [hmode]
    rfl
  rw [deliver_eq hp hroutine]
  rfl

/-- The trap base register after an entry, as a number: the base, the number of
the trap, and the low four bits. -/
theorem toNat_enterTrap_tbr (c : Cpu) (t : TrapKind) : (c.enterTrap t).tbr.toNat =
    c.tbr.toNat - c.tbr.toNat % 0x1000 + t.code.toNat * 16 + c.tbr.toNat % 16 := by
  have htbr : (c.enterTrap t).tbr =
      c.tbr - c.tbr % 0x1000 + t.code.toUInt32 * 16 + c.tbr % 16 := by
    simp [enterTrap, rotate, setCwp]
  have hcode := t.code.toNat_lt
  have hlt := c.tbr.toNat_lt
  have h16 : (16 : Word).toNat = 16 := rfl
  rw [htbr, UInt32.toNat_add, UInt32.toNat_add, UInt32.toNat_mul, Word.toNat_page, UInt32.toNat_mod,
    UInt8.toNat_toUInt32, h16]
  omega

theorem enterTrap_psr (c : Cpu) (t : TrapKind) : (c.enterTrap t).psr = { c.psr with
    ps := c.psr.s, s := true, et := false, cwp := Fin.ofNat 32 (c.neighbour .down) } := by
  simp [enterTrap, rotate, setCwp]
  rfl

/-- A handler starts at a multiple of sixteen. -/
theorem toNat_handler (w : Word) : (w - w % 16).toNat = w.toNat - w.toNat % 16 := by
  have hle : w % 16 ≤ w := by
    rw [UInt32.le_iff_toNat_le, UInt32.toNat_mod]
    exact Nat.mod_le _ _
  rw [UInt32.toNat_sub_of_le _ _ hle, UInt32.toNat_mod]
  rfl

theorem isAligned_handler (w : Word) : (w - w % 16).isAligned := by
  rw [Word.isAligned_iff, toNat_handler]
  omega

/-- An entry does not touch the annul flag. -/
theorem atHandler_pendingAnnul (c : Cpu) (t : TrapKind) :
    (c.atHandler t).pendingAnnul = c.pendingAnnul := (resumes_enterTrap c t).annul

theorem Shaped.atHandler (h : c.Shaped) (t : TrapKind) : (c.atHandler t).Shaped :=
  (h.enterTrap t).congr rfl rfl (h.enterTrap t).cwp_lt

/-- In the window of the trap the two locals hold the two addresses. -/
theorem get_atHandler (h : c.Shaped) (t : TrapKind) :
    (c.atHandler t).get Reg.l1 = c.pc ∧ (c.atHandler t).get Reg.l2 = c.npc := by
  have h₁ := h.inTrap.set Reg.l1 c.pc
  show ((c.inTrap.set Reg.l1 c.pc).set Reg.l2 c.npc).get Reg.l1 = c.pc ∧
    ((c.inTrap.set Reg.l1 c.pc).set Reg.l2 c.npc).get Reg.l2 = c.npc
  rw [get_set h₁, get_set h₁, get_set h.inTrap]
  exact ⟨rfl, rfl⟩

/-- The file after an entry: two locals of the next lower window have changed. -/
theorem getElem?_atHandler (h : c.Shaped) (t : TrapKind) (i : Nat) :
    (c.atHandler t).regs[i]? =
      if i = 17 + 16 * below c.windows c.cwp then some c.pc
      else if i = 18 + 16 * below c.windows c.cwp then some c.npc else c.regs[i]? := by
  have hbelow := below_lt h.cwp_lt
  have hsize := h.size
  have h₁ := h.inTrap.set Reg.l1 c.pc
  have hl1 : c.inTrap.index Reg.l1 = 17 + 16 * below c.windows c.cwp := by
    rw [index_eq h.inTrap, inTrap_cwp h]
    exact place_of_lt hbelow (by decide) (by decide)
  have hl2 : (c.inTrap.set Reg.l1 c.pc).index Reg.l2 = 18 + 16 * below c.windows c.cwp := by
    rw [index_eq h₁, set_cwp, inTrap_cwp h, set_windows]
    exact place_of_lt hbelow (by decide) (by decide)
  have hregs : (c.atHandler t).regs = (c.regs.setIfInBounds (17 + 16 * below c.windows c.cwp)
      c.pc).setIfInBounds (18 + 16 * below c.windows c.cwp) c.npc := by
    show ((c.inTrap.set Reg.l1 c.pc).set Reg.l2 c.npc).regs = _
    rw [regs_set _ _ (by decide), regs_set _ _ (by decide), hl2, hl1]
    rfl
  rw [hregs, Array.getElem?_setIfInBounds, Array.getElem?_setIfInBounds, Array.size_setIfInBounds]
  split_ifs <;> first | rfl | omega

/-! ### The two instructions -/

/-- A word that stands for an instruction without the bus is carried out. -/
theorem step_operates {word : Word} {i : Instr} (hp : e.pendingTrap = none)
    (hannul : e.pendingAnnul = false) (hf : e.fetched bus s = some word) (hi : Instr.ofWord word = i)
    (hreal : i.implemented) (hexec : ∀ c : Cpu, c.execute i = .done (c.operate i)) :
    (e.step.hold bus s).1 = (e.clearZero.operate i).outcome := by
  have hdispatch : e.clearZero.dispatch word i = (e.clearZero.operate i).retire := by
    unfold dispatch
    rw [if_pos hreal, hexec]
    rfl
  rw [step_dispatched hp hannul hf, hi, hdispatch]
  unfold retire outcome
  cases (e.clearZero.operate i).pendingTrap with
  | none => rfl
  | some t => rfl

/-- A jump that keeps no return address. -/
theorem step_jump {word : Word} {rs1 : Reg} {src : Operand} (hp : e.pendingTrap = none)
    (hannul : e.pendingAnnul = false) (hf : e.fetched bus s = some word)
    (hi : Instr.ofWord word = .jmpl rs1 src 0) : (e.step.hold bus s).1 = (.completed,
      { e.clearZero with pc := e.npc, npc := e.sum rs1 src, branchTarget := none }) := by
  rw [step_operates hp hannul hf hi rfl fun _ => rfl, ← sum_clearZero]
  have hnone : (e.clearZero.operate (.jmpl rs1 src 0)).pendingTrap = none := hp
  unfold outcome
  rw [hnone]
  rfl

/-- A return from a trap to a valid window. -/
theorem step_return {word : Word} {rs1 : Reg} {src : Operand} (hp : e.pendingTrap = none)
    (hannul : e.pendingAnnul = false) (hf : e.fetched bus s = some word)
    (hi : Instr.ofWord word = .rett rs1 src) (hvalid : ¬ e.isInvalid (e.neighbour .up))
    (hsuper : e.psr.s = true) (het : e.psr.et = false) : (e.step.hold bus s).1 = (.completed,
      { e.clearZero with
        pc := e.npc, npc := e.sum rs1 src, branchTarget := none
        psr := { e.psr with s := e.psr.ps, et := true, cwp := Fin.ofNat 32 (e.neighbour .up) } }) := by
  have hreturn : e.clearZero.returnFromTrap rs1 src = ({ e.clearZero.transfer (e.sum rs1 src) with
      psr := { e.psr with s := e.psr.ps, et := true } } : Cpu).setCwp (e.neighbour .up) := by
    unfold returnFromTrap
    simp only
    rw [if_neg (by exact hvalid), if_neg (by simpa [clearZero] using hsuper),
      if_neg (by simpa [clearZero] using het), sum_clearZero]
    rfl
  rw [step_operates hp hannul hf hi rfl fun _ => rfl]
  show outcome (e.clearZero.returnFromTrap rs1 src) = _
  have hnone : (e.clearZero.returnFromTrap rs1 src).pendingTrap = none := by
    rw [hreturn]
    exact hp
  unfold outcome
  rw [hnone, hreturn]
  rfl

/-! ### Back where the trap came from -/

/-- `c'` goes on at `pc` and `npc` after the trap `t` of `c`: the state register
has only the previous mode changed, and with it the window, the mode, the flags
and the enabled traps are what they were; the trap base register has the number
of the trap in its field; of the file, two locals of the next lower window hold
the addresses of `c`, and register 0 is zero. -/
structure ResumedAt (c : Cpu) (t : TrapKind) (pc npc : Word) (c' : Cpu) : Prop where
  pc : c'.pc = pc
  npc : c'.npc = npc
  psr : c'.psr = { c.psr with ps := c.psr.s }
  wim : c'.wim = c.wim
  y : c'.y = c.y
  config : c'.config = c.config
  trap : c'.pendingTrap = none
  annul : c'.pendingAnnul = false
  target : c'.branchTarget = none
  base : c'.tbr.toNat / 0x1000 = c.tbr.toNat / 0x1000 ∧ c'.tbr.toNat % 16 = c.tbr.toNat % 16
  number : c'.tbr.toNat / 16 % 256 = t.code.toNat
  regs : ∀ i : Nat, c'.regs[i]? =
    if i = 0 then some 0
    else if i = 17 + 16 * ((c.cwp + c.windows - 1) % c.windows) then some c.pc
    else if i = 18 + 16 * ((c.cwp + c.windows - 1) % c.windows) then some c.npc
    else c.regs[i]?

/-- The processor when a handler has gone back to `pc` and `npc`. -/
def returned (c : Cpu) (t : TrapKind) (pc npc : Word) : Cpu :=
  { (c.atHandler t).clearZero with
    pc, npc, branchTarget := none, psr := { c.psr with ps := c.psr.s, et := true } }

theorem resumedAt_returned (h : c.Shaped) (t : TrapKind) (het : c.psr.et = true)
    (hannul : c.pendingAnnul = false) (pc npc : Word) :
    c.ResumedAt t pc npc (c.returned t pc npc) := by
  have hr := resumes_enterTrap c t
  have htbr := toNat_enterTrap_tbr c t
  have hcode := t.code.toNat_lt
  have hannul₀ : (c.returned t pc npc).pendingAnnul = false :=
    (atHandler_pendingAnnul c t).trans hannul
  refine ⟨rfl, rfl, ?_, enterTrap_wim t, hr.y, hr.config, rfl, hannul₀, rfl, ?_, ?_, fun i => ?_⟩
  · simp [returned, het]
  · show (c.enterTrap t).tbr.toNat / 0x1000 = _ ∧ (c.enterTrap t).tbr.toNat % 16 = _
    omega
  · show (c.enterTrap t).tbr.toNat / 16 % 256 = _
    omega
  · have hdown : (c.cwp + c.windows - 1) % c.windows = below c.windows c.cwp := neighbour_down h
    have hsize := (h.atHandler t).size
    show ((c.atHandler t).regs.setIfInBounds 0 0)[i]? = _
    rw [hdown, ← getElem?_atHandler h, Array.getElem?_setIfInBounds]
    split_ifs <;> first | rfl | omega

/-- The window above that of the trap is the one the trap came from. -/
theorem neighbour_up_atHandler (h : c.Shaped) (t : TrapKind) :
    (c.atHandler t).neighbour .up = c.cwp := by
  have hwindows : (c.atHandler t).windows = c.windows :=
    congrArg (fun x : Configuration => x.windows.toNat) (resumes_enterTrap c t).config
  have hcwp : (c.atHandler t).cwp = below c.windows c.cwp := enterTrap_cwp h t
  rw [neighbour_up (h.atHandler t), hwindows, hcwp, above_below h.cwp_lt]

/-- The steps of a handler go back to what their operands sum up to. -/
theorem hold_handler (h : c.Shaped) (hannul : c.pendingAnnul = false)
    (hvalid : ¬ c.isInvalid c.cwp) {x : Cpu} (hx : x = c.atHandler t) {w₁ w₂ : Word} {s₁ : σ}
    {rs1 rs1' : Reg} {src src' : Operand} (hf : x.fetched bus s = some w₁)
    (hi : Instr.ofWord w₁ = .jmpl rs1 src 0)
    (hf' : (x.step.hold bus s).1.2.fetched bus s₁ = some w₂)
    (hi' : Instr.ofWord w₂ = .rett rs1' src') :
    (x.step.hold bus s).1.1 = .completed ∧ ((x.step.hold bus s).1.2.step.hold bus s₁).1 =
      (.completed, c.returned t (x.sum rs1 src) (x.sum rs1' src')) := by
  subst hx
  have hannul₀ : (c.atHandler t).pendingAnnul = false := (atHandler_pendingAnnul c t).trans hannul
  -- the jump
  let e : Cpu := { (c.atHandler t).clearZero with
    pc := (c.atHandler t).npc, npc := (c.atHandler t).sum rs1 src, branchTarget := none }
  have hjump : ((c.atHandler t).step.hold bus s).1 = (.completed, e) := step_jump rfl hannul₀ hf hi
  rw [hjump] at hf' ⊢
  refine ⟨rfl, ?_⟩
  -- the return
  have hpsr : e.psr = { c.psr with
      ps := c.psr.s, s := true, et := false, cwp := Fin.ofNat 32 (c.neighbour .down) } :=
    enterTrap_psr c t
  have hup : e.neighbour .up = c.cwp := neighbour_up_atHandler h t
  have hvalid' : ¬ e.isInvalid (e.neighbour .up) := by
    have hwim : e.wim = c.wim := enterTrap_wim t
    unfold isInvalid
    rw [hup, hwim]
    exact hvalid
  have hreturn := step_return (e := e) rfl hannul₀ hf' hi' hvalid' (by rw [hpsr]) (by rw [hpsr])
  have hcwp : Fin.ofNat 32 c.cwp = c.psr.cwp := Fin.ext (Nat.mod_eq_of_lt c.psr.cwp.isLt)
  have hsum : e.sum rs1' src' = (c.atHandler t).sum rs1' src' := sum_clearZero ..
  have hzero : e.clearZero = e := by simp [e, clearZero]
  rw [hup, hpsr, hcwp, hsum, hzero] at hreturn
  exact hreturn

end Cpu

/-! ### The two ways back -/

/-- Where a handler goes on: at the trapped instruction, or after it. -/
inductive WayBack where
  | retry
  | skip

/-- The two words are the jump and the return that lead there. -/
def WayBack.Coded : WayBack → Word → Word → Prop
  | .retry, w₁, w₂ => ∃ z₁ z₂ : Operand, z₁.IsZero ∧ z₂.IsZero ∧
      Instr.ofWord w₁ = .jmpl Reg.l1 z₁ 0 ∧ Instr.ofWord w₂ = .rett Reg.l2 z₂
  | .skip, w₁, w₂ => ∃ z : Operand, z.IsZero ∧
      Instr.ofWord w₁ = .jmpl Reg.l2 z 0 ∧ Instr.ofWord w₂ = .rett Reg.l2 (.imm 4)

/-- The two addresses at which `c` goes on. -/
def WayBack.addresses (c : Cpu) : WayBack → Word × Word
  | .retry => (c.pc, c.npc)
  | .skip => (c.npc, c.npc + 4)

theorem Operand.IsZero.operand {z : Operand} (h : z.IsZero) (c : Cpu) : c.operand z = 0 := by
  rcases h with rfl | rfl <;> rfl

/-- In the window of the trap, the operands of the two words sum up to the
addresses. -/
theorem WayBack.Coded.sums {c : Cpu} (h : c.Shaped) (t : TrapKind) {way : WayBack} {w₁ w₂ : Word}
    (hw : way.Coded w₁ w₂) : ∃ rs1 src rs1' src',
      Instr.ofWord w₁ = .jmpl rs1 src 0 ∧ Instr.ofWord w₂ = .rett rs1' src' ∧
      ((c.atHandler t).sum rs1 src, (c.atHandler t).sum rs1' src') = way.addresses c := by
  obtain ⟨hl1, hl2⟩ := Cpu.get_atHandler h t
  cases way with
  | retry =>
    obtain ⟨z₁, z₂, hz₁, hz₂, hi₁, hi₂⟩ := hw
    refine ⟨_, _, _, _, hi₁, hi₂, ?_⟩
    simp only [Cpu.sum, hl1, hl2, hz₁.operand, hz₂.operand, UInt32.add_zero]
    rfl
  | skip =>
    obtain ⟨z, hz, hi₁, hi₂⟩ := hw
    refine ⟨_, _, _, _, hi₁, hi₂, ?_⟩
    simp only [Cpu.sum, hl2, hz.operand, UInt32.add_zero]
    rfl

/-- **Entry and return compose to nothing.** Let a trap be pending with traps
enabled, in a valid window and with no slot to be skipped. Its vectored delivery
and the two steps of a handler that has one of the ways back all succeed, and
then the processor goes on where the way back leads, with nothing changed but
what `Cpu.ResumedAt` says. Nothing is asked of the bus but the two words. -/
theorem handler_return {σ : Type} {c : Cpu} {t : TrapKind} (h : c.Shaped)
    (hmode : c.config.trapMode = .vectored) (hp : c.pendingTrap = some t) (het : c.psr.et = true)
    (hannul : c.pendingAnnul = false) (hvalid : ¬ c.isInvalid c.cwp) (bus : Bus σ) (s : σ) :
    let entry := c.deliver.hold bus s
    let jump := entry.1.2.step.hold bus entry.2
    let back := jump.1.2.step.hold bus jump.2
    let handler := entry.1.2.tbr - entry.1.2.tbr % 16
    ∀ (way : WayBack) (w₁ w₂ : Word), way.Coded w₁ w₂ →
      (bus.read handler entry.2).1 = .ok w₁ → (bus.read (handler + 4) jump.2).1 = .ok w₂ →
      (entry.1.1 = none ∧ jump.1.1 = .completed ∧ back.1.1 = .completed) ∧
        c.ResumedAt t (way.addresses c).1 (way.addresses c).2 back.1.2 := by
  intro entry jump back handler way w₁ w₂ hw hread₁ hread₂
  have hentry : entry.1 = (none, c.atHandler t) := Cpu.hold_deliver_vectored hmode hp bus s
  have hcpu : entry.1.2 = c.atHandler t := congrArg Prod.snd hentry
  obtain ⟨rs1, src, rs1', src', hi₁, hi₂, haddr⟩ := hw.sums h t
  have halign : handler.isAligned := Cpu.isAligned_handler _
  have hstart : ∀ x : Cpu, x = c.atHandler t → x.pendingTrap = none ∧ x.pendingAnnul = false ∧
      x.pc = x.tbr - x.tbr % 16 ∧ x.npc = x.tbr - x.tbr % 16 + 4 := by
    rintro x rfl
    exact ⟨rfl, (Cpu.atHandler_pendingAnnul c t).trans hannul, rfl, rfl⟩
  obtain ⟨htrap₁, hannul₁, hpc, hnpc⟩ := hstart entry.1.2 hcpu
  -- the two words are fetched where they stand
  have hf₁ : entry.1.2.fetched bus entry.2 = some w₁ := by
    rw [Cpu.fetched_eq_some, hpc]
    exact ⟨halign, hread₁⟩
  have hpc₂ : jump.1.2.pc = handler + 4 :=
    (congrArg (fun r => r.2.pc) (Cpu.step_jump htrap₁ hannul₁ hf₁ hi₁)).trans hnpc
  have hf₂ : jump.1.2.fetched bus jump.2 = some w₂ := by
    rw [Cpu.fetched_eq_some, hpc₂]
    exact ⟨Word.isAligned_add_four halign, hread₂⟩
  obtain ⟨hjump, hback⟩ := Cpu.hold_handler h hannul hvalid hcpu hf₁ hi₁ hf₂ hi₂
  refine ⟨⟨congrArg Prod.fst hentry, hjump, congrArg Prod.fst hback⟩, ?_⟩
  have hreturned : back.1.2 = c.returned t (way.addresses c).1 (way.addresses c).2 := by
    rw [← haddr, ← hcpu]
    exact congrArg Prod.snd hback
  rw [hreturned]
  exact Cpu.resumedAt_returned h t het hannul _ _

/-- Two windows, with a software trap in a delay slot at 64. -/
def trappedTwo : Cpu :=
  { resetTwo with pc := 0x40, npc := 0x80, pendingTrap := some (.software 3) }

/-- A bus with a handler of two words for that trap. -/
def handlerBus (w₁ w₂ : Word) : Bus Unit where
  read addr s := (.ok (if addr = 0x830 then w₁ else w₂), s)
  write _ _ s := (.ok (), s)

/-- The processor after the delivery and two steps. -/
def Cpu.afterHandler (bus : Bus Unit) (c : Cpu) : Cpu :=
  (((c.deliver.hold bus ()).1.2.step.hold bus ()).1.2.step.hold bus ()).1.2

/-- Both ways back, out of a delay slot: `jmpl %l1, %g0; rett %l2` and
`jmpl %l2, %g0; rett %l2 + 4`. -/
theorem handler_return_from_delay_slot :
    trappedTwo.ResumedAt (.software 3) 0x40 0x80
        (trappedTwo.afterHandler (handlerBus 0x81c46000 0x81cca000)) ∧
      trappedTwo.ResumedAt (.software 3) 0x80 0x84
        (trappedTwo.afterHandler (handlerBus 0x81c4a000 0x81cca004)) := by
  have hshape : trappedTwo.Shaped := ⟨by decide, by decide, by decide, by decide⟩
  have hvalid : ¬ trappedTwo.isInvalid trappedTwo.cwp := by decide
  have hretry := handler_return hshape rfl rfl rfl rfl hvalid (handlerBus 0x81c46000 0x81cca000) ()
    .retry 0x81c46000 0x81cca000 ⟨.imm 0, .imm 0, .inl rfl, .inl rfl, by decide, by decide⟩
  have hskip := handler_return hshape rfl rfl rfl rfl hvalid (handlerBus 0x81c4a000 0x81cca004) ()
    .skip 0x81c4a000 0x81cca004 ⟨.imm 0, .inl rfl, by decide, by decide⟩
  exact ⟨(hretry rfl rfl).2, (hskip rfl rfl).2⟩

end SparcIU
