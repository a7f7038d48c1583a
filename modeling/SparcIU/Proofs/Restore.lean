/-
# Saving and restoring a processor

The record of a processor that was reached from a reset holds all of it but its
configuration: laid over any processor with as many windows it makes that one the same,
although some values have no word of their own (a target of all ones, a software trap
of more than seven bits, something in register 0). They do not arise between two calls
(`Cpu.Sound`, `Cpu.Settles`). If its traps are delivered in the same way, the restored
processor then does the same in every run (`record_restores`).

Key theorems: `Cpu.overlay_registers`, `Cpu.overlay_tail`, `Cpu.loadRecord_toRecord`,
`record_restores`.
-/
import SparcIU.Proofs.Codes
import SparcIU.Proofs.FileOrder
import SparcIU.Proofs.Reachable

namespace SparcIU
namespace Cpu

variable {c d : Cpu}

/-! ### One section after the other -/

theorem overlay_append (fs gs : List RecordField) (ws vs : List Word) (hlen : ws.length = fs.length)
    (c : Cpu) : overlay (fs ++ gs) (ws ++ vs) c =
      match overlay fs ws c with
      | .error e => .error e
      | .ok c => overlay gs vs c := by
  induction fs generalizing ws c with
  | nil =>
    rw [List.eq_nil_of_length_eq_zero hlen]
    rfl
  | cons f fs ih =>
    cases ws with
    | nil => cases hlen
    | cons w ws =>
      simp only [List.cons_append, overlay]
      cases f c w with
      | error e => rfl
      | ok c₁ => exact ih ws (Nat.succ.inj hlen) c₁

/-- The registers are laid one by one: those before place `j` stand already. -/
theorem overlay_registers (rs : Array Word) {m j : Nat} (hj : j + m = rs.size)
    (hsize : d.regs.size = rs.size) (hsame : ∀ i < j, d.regs[i]? = rs[i]?) :
    overlay ((List.range' j m).map fun i => fun c w =>
        .ok { c with regs := c.regs.setIfInBounds i w }) (rs.toList.drop j) d
      = .ok { d with regs := rs } := by
  induction m generalizing d j with
  | zero =>
    have hregs : d.regs = rs := by
      refine Array.ext_getElem? fun i => ?_
      by_cases hi : i < j
      · exact hsame i hi
      · rw [Array.getElem?_eq_none (by omega), Array.getElem?_eq_none (by omega)]
    rw [← hregs]
    rfl
  | succ m ih =>
    have hlt : j < rs.toList.length := by rw [Array.length_toList]; omega
    rw [List.range'_succ, List.map_cons, List.drop_eq_getElem_cons hlt, overlay]
    refine (ih (d := { d with regs := d.regs.setIfInBounds j rs.toList[j] }) (by omega) ?_ ?_)
    · exact Array.size_setIfInBounds.trans hsize
    · intro i hi
      show (d.regs.setIfInBounds j rs.toList[j])[i]? = rs[i]?
      rw [Array.getElem?_setIfInBounds]
      split
      · rename_i he
        subst he
        rw [if_pos (by omega), Array.getElem?_eq_getElem (by omega), Array.getElem_toList]
      · exact hsame i (by omega)

/-- A pending trap with a number of seven bits is read back. -/
theorem trapField_trapWord {p : Option TrapKind} (hp : ∀ t, p = some t → t.Small) :
    trapField d (trapWord p) = .ok { d with pendingTrap := p } := by
  unfold trapField trapWord
  cases p with
  | none => rfl
  | some t =>
    have hcode : t.code.toUInt32 ≠ 0 := by
      intro h
      have hzero := congrArg UInt32.toUInt8 h
      rw [UInt8.toUInt8_toUInt32] at hzero
      exact TrapKind.code_ne_zero t hzero
    have hlt : ¬ 0x100 ≤ t.code.toUInt32 := by
      rw [UInt32.le_iff_toNat_le, UInt8.toNat_toUInt32]
      exact Nat.not_le.mpr t.code.toNat_lt
    simp only [if_neg hcode, if_neg hlt, UInt8.toUInt8_toUInt32, TrapKind.ofCode_code (hp t rfl)]

/-- The word of a state register with an existing window is read back. -/
theorem psrField_toBits {p : Psr} (h : p.cwp.val < d.config.windows.toNat) :
    psrField d p.toBits = .ok { d with psr := p } := by
  simp only [psrField, Psr.ofBits_toBits, if_pos h]

/-- The fields behind the registers. -/
theorem overlay_tail (hs : c.Sound) (hidle : c.branchTarget = none)
    (hwindows : d.config.windows = c.config.windows) :
    overlay tailFields c.recordTail d =
      .ok { c with pc := d.pc, npc := d.npc, regs := d.regs, config := d.config } := by
  have hcwp : c.psr.cwp.val < d.config.windows.toNat := by
    rw [hwindows]
    exact hs.cwp_lt
  have hannul : ((if c.pendingAnnul then (1 : Word) else 0) != 0) = c.pendingAnnul := by
    cases c.pendingAnnul <;> rfl
  have hnone : (if (none : Option Word).getD noTarget = noTarget then none
      else some ((none : Option Word).getD noTarget)) = none := if_pos rfl
  simp only [tailFields, recordTail, overlay, psrField_toBits hcwp, trapField_trapWord hs.small]
  rw [hannul, hidle, hnone]

/-- **A record restores the processor it was made of.** -/
theorem loadRecord_toRecord (hs : c.Sound) (hidle : c.branchTarget = none)
    (hwindows : d.config.windows = c.config.windows) (hsize : d.regs.size = c.regs.size)
    (o : ByteOrder) : d.loadRecord (c.toRecord o) o = .ok { c with config := d.config } := by
  have hlen : d.recordLength = c.recordLength := by rw [recordLength, recordLength, hsize]
  have hfour : c.recordLength = 4 * (c.regs.size + 9) := by unfold recordLength; omega
  have hoverlay : overlay (recordFields d.regs.size) c.recordWords d
      = .ok { c with config := d.config } := by
    let d₂ : Cpu := { d with pc := c.pc, npc := c.npc }
    have hregs : overlay (registerFields d.regs.size) c.regs.toList d₂
        = .ok { d₂ with regs := c.regs } := by
      have h := overlay_registers (d := d₂) c.regs (Nat.zero_add c.regs.size) hsize
        (fun i hi => absurd hi (Nat.not_lt_zero i))
      rwa [List.drop_zero, ← List.range_eq_range', ← hsize] at h
    have hhead : c.recordHead.length = (registerFields d.regs.size).length + 2 := by
      simp [recordHead, length_registerFields, hsize]
    calc overlay (recordFields d.regs.size) c.recordWords d
        = match overlay (registerFields d.regs.size) c.regs.toList d₂ with
          | .error e => .error e
          | .ok c' => overlay tailFields c.recordTail c' := by
          rw [recordFields_eq, recordWords_eq, overlay_append _ _ _ _ hhead]
          rfl
      _ = overlay tailFields c.recordTail { d₂ with regs := c.regs } := by rw [hregs]
      _ = .ok { c with config := d.config } := overlay_tail hs hidle hwindows
  unfold loadRecord
  rw [size_toRecord, hlen, wordsOf_toRecord, hoverlay, if_neg (by omega), if_neg (by omega),
    if_neg (Nat.lt_irrefl _)]
  exact congrArg Except.ok (clearZero_of_zero hs.zero)

end Cpu

/-! ### Later runs -/

/-- **A saved processor is restored.** Of every processor that a host comes to from a
reset without loading a record, the complete record restores every field but the
configuration, in any processor with as many windows, and makes the same records again.
If the traps are delivered in the same way, every run of the restored processor does
what the run of the saved one does and leaves the same. -/
theorem record_restores {σ : Type} {config : Configuration} {c₀ : Cpu}
    (hc : Cpu.ofConfiguration config = .ok c₀) (bus : Bus σ) (s : σ) (pc : Word)
    {calls : List (HostCall σ)} (hload : ∀ call ∈ calls, ¬ call.isLoad) (o : ByteOrder) {d : Cpu}
    (hwindows : d.config.windows = config.windows) (hsize : d.regs.size = d.config.registerCount) :
    let c := (HostCall.applyAll bus calls (c₀.reset pc, s)).1
    let restored : Cpu := { c with config := d.config }
    (c.toRecord o).size = c.recordLength ∧ d.loadRecord (c.toRecord o) o = .ok restored ∧
      (∀ o', restored.toRecord o' = c.toRecord o') ∧
      (d.config.trapMode = config.trapMode →
        ∀ {τ : Type} (bus' : Bus τ) (stop : Nat → τ → Bool) (budget : Nat) (s' : τ),
          let r := c.run bus' stop budget s'
          let r' := restored.run bus' stop budget s'
          r'.exit = r.exit ∧ r'.steps = r.steps ∧ r'.asked = r.asked ∧ r'.device = r.device ∧
            r'.cpu = { r.cpu with config := d.config }) := by
  intro c restored
  have hs₀ := Cpu.fresh_sound hc
  have hconfig₀ : c₀.config = config := by rw [(Cpu.ofConfiguration_ok hc).2]
  have hreset := Cpu.settles_reset hs₀ pc
  have hcalls := HostCall.settles_applyAll bus hload (x := (c₀.reset pc, s)) (hreset.sound hs₀)
  have hs : c.Sound := hcalls.sound (hreset.sound hs₀)
  have hidle : c.branchTarget = none := hcalls.idle rfl
  have hconfig : c.config = config := hcalls.config.trans (hreset.config.trans hconfig₀)
  have hsame : d.config.windows = c.config.windows := by rw [hwindows, hconfig]
  have hregs : d.regs.size = c.regs.size := by
    rw [hsize, hs.size, Cpu.windows, ← hsame]
    rfl
  refine ⟨Cpu.size_toRecord c o, Cpu.loadRecord_toRecord hs hidle hsame hregs o, fun _ => rfl, ?_⟩
  intro hmode τ bus' stop budget s' r r'
  -- only the order of files is left to differ
  have hwith : ∀ x : Cpu, x.config = config →
      { x with config := d.config } = x.withOrder d.config.order := by
    intro x hx
    have hd : d.config = { config with order := d.config.order } := by
      rw [← hwindows, ← hmode]
    unfold Cpu.withOrder
    rw [hx, ← hd]
  have hr : r.cpu.config = config :=
    (Cpu.settles_runFrom hs bus' stop budget 0 0 s').config.trans hconfig
  have hr' : r' = Cpu.resultWithOrder d.config.order r :=
    calc r' = (c.withOrder d.config.order).run bus' stop budget s' :=
          congrArg (fun x : Cpu => x.run bus' stop budget s') (hwith c hconfig)
      _ = Cpu.resultWithOrder d.config.order r := Cpu.run_withOrder ..
  rw [hr', hwith r.cpu hr]
  exact ⟨rfl, rfl, rfl, rfl, rfl⟩

/-- A processor with a software trap pending behind a double load that was cut short,
restored in one that keeps its files in the other order. -/
theorem record_restores_pending :
    Cpu.ofConfiguration { windows := 2 } = .ok resetTwo ∧
      let d : Cpu :=
        { resetTwo with pc := 0x40, wim := 0, config := { windows := 2, order := .little } }
      let c := (HostCall.applyAll doubleLoadBus [.rotate .down, .step, .raise 0xff]
        (resetTwo.reset 0, ())).1
      let restored : Cpu := { c with config := d.config }
      d.loadRecord (c.toRecord .big) .big = .ok restored ∧
        restored.toRecord .little = c.toRecord .little ∧
        (restored.run doubleLoadBus (fun _ _ => false) 5 ()).exit =
          (c.run doubleLoadBus (fun _ _ => false) 5 ()).exit := by
  have hc : Cpu.ofConfiguration { windows := 2 } = .ok resetTwo := rfl
  let d : Cpu :=
    { resetTwo with pc := 0x40, wim := 0, config := { windows := 2, order := .little } }
  let calls : List (HostCall Unit) := [.rotate .down, .step, .raise 0xff]
  have hload : ∀ call ∈ calls, ¬ call.isLoad := by decide
  have h := record_restores hc doubleLoadBus () 0 hload .big (d := d) rfl rfl
  exact ⟨hc, h.2.1, h.2.2.1 .little, (h.2.2.2 rfl doubleLoadBus (fun _ _ => false) 5 ()).1⟩

end SparcIU
