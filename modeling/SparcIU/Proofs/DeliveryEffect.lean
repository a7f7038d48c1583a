/-
# What the service of a window trap changes

The service of a window trap always succeeds, and all it does can be said in
terms of the processor before it. The bus is asked for the sixteen words of one
window in order, each of them also after one that was refused, and for none if
the stack pointer of that window is zero (`Cpu.asked_spill`, `Cpu.asked_fill`).
The trap leaves two addresses, its number and the old mode behind
(`Cpu.Delivered`), a fill takes in the words that were read, and every other
place of the file is what it was (`Cpu.SameBeside`).

Key definitions: `Cpu.Delivered`, `Cpu.SameBeside`.
Key theorems: `Cpu.asked_spill`, `Cpu.asked_fill`, `Cpu.delivered_of_entry`,
`service_effect`.
-/
import SparcIU.Proofs.Footprint
import SparcIU.Proofs.HandlerReturn
import SparcIU.Proofs.Mark
import SparcIU.Proofs.PendingTrap
import SparcIU.Proofs.Retry
import SparcIU.Proofs.WorkingMemory

namespace SparcIU

namespace Cpu

open Window

variable {c c' : Cpu} {t : TrapKind}

/-! ### What the bus is asked for -/

/-- The locals and ins by their numbers. -/
theorem mapIdx_saveArea {α : Type} (f : Nat → Reg → α) :
    Reg.saveArea.mapIdx f = (List.range 16).map fun k => f k (Reg.ofNat (16 + k)) := by
  have hslot : ∀ k : Fin Reg.saveArea.length, Reg.saveArea.get k = Reg.ofNat (16 + k) := by decide
  refine List.ext_getElem (by simp [Reg.saveArea]) fun k hk _ => ?_
  rw [List.length_mapIdx] at hk
  rw [List.getElem_mapIdx, List.getElem_map, List.getElem_range, ← hslot ⟨k, hk⟩, List.get_eq_getElem]

/-- A spill asks for sixteen writes, or for none. -/
theorem asked_spill (c : Cpu) : c.spill.Always fun l _ =>
    l.map Access.asked = if (c.rotate .down).get Reg.sp = 0 then []
      else (List.range 16).map fun k => (slot ((c.rotate .down).get Reg.sp) k,
        some ((c.rotate .down).get (Reg.ofNat (16 + k)))) := by
  unfold spill
  simp only
  refine .map ?_
  generalize c.rotate .down = below
  by_cases hsp : below.get Reg.sp = 0
  · rw [if_pos hsp, if_pos hsp]
    exact rfl
  · rw [if_neg hsp, if_neg hsp,
      ← mapIdx_saveArea fun k r => (slot (below.get Reg.sp) k, some (below.get r))]
    exact asked_storeWindow _ _ _

/-- A fill asks for sixteen reads, or for none. -/
theorem asked_fill (c : Cpu) : c.fill.Always fun l _ =>
    l.map Access.asked = if ((c.rotate .up).rotate .up).get Reg.sp = 0 then []
      else (List.range 16).map fun k =>
        (slot (((c.rotate .up).rotate .up).get Reg.sp) k, none) := by
  unfold fill
  simp only
  refine .map ?_
  generalize (c.rotate .up).rotate .up = above
  by_cases hsp : above.get Reg.sp = 0
  · rw [if_pos hsp, if_pos hsp]
    exact rfl
  · rw [if_neg hsp, if_neg hsp, ← mapIdx_saveArea fun k _ => (slot (above.get Reg.sp) k, none)]
    exact asked_loadWindow _ _ _

theorem asked_overflow (hmode : c.config.trapMode = .internal)
    (hp : c.pendingTrap = some .windowOverflow) : c.deliver.Always fun l _ =>
      l.map Access.asked = if c.belowTrap.get Reg.sp = 0 then []
        else (List.range 16).map fun k =>
          (slot (c.belowTrap.get Reg.sp) k, some (c.belowTrap.get (Reg.ofNat (16 + k)))) := by
  rw [deliver_eq hp (routine_overflow hmode), Dialogue.always_remark]
  unfold belowTrap
  generalize c.enterTrap .windowOverflow = c₁
  exact .map (.map (asked_spill c₁))

theorem asked_underflow (hmode : c.config.trapMode = .internal)
    (hp : c.pendingTrap = some .windowUnderflow) : c.deliver.Always fun l _ =>
      l.map Access.asked = if c.aboveTrap.get Reg.sp = 0 then []
        else (List.range 16).map fun k => (slot (c.aboveTrap.get Reg.sp) k, none) := by
  rw [deliver_eq hp (routine_underflow hmode), Dialogue.always_remark]
  unfold aboveTrap
  generalize c.enterTrap .windowUnderflow = c₁
  exact .map (.map (asked_fill c₁))

/-! ### What a trap leaves behind -/

/-- A delivery sets the mode and the trap base register as the entry does. -/
theorem always_deliver_entry {routine : Routine} (hp : c.pendingTrap = some t)
    (hroutine : c.config.trapMode.routine t = some routine) : c.deliver.Always fun _ r =>
      r.2.tbr = (c.enterTrap t).tbr ∧
        ∃ w, r.2.psr = { c.psr with ps := c.psr.s, s := true, et := false, cwp := w } := by
  let P (c' : Cpu) : Prop := c'.tbr = (c.enterTrap t).tbr ∧
    ∃ w, c'.psr = { c.psr with ps := c.psr.s, s := true, et := false, cwp := w }
  have hset : ∀ c' r v, P c' → P (c'.set r v) := by
    rintro c' r v ⟨htbr, w, hpsr⟩
    exact ⟨(set_tbr c' r v).trans htbr, w, (set_psr c' r v).trans hpsr⟩
  have hrotate : ∀ c' t, P c' → P (c'.rotate t) := by
    rintro c' t ⟨htbr, w, hpsr⟩
    refine ⟨htbr, Fin.ofNat 32 (c'.neighbour t), ?_⟩
    simp only [rotate, setCwp, hpsr]
  have hentered : P (c.enterTrap t) := ⟨rfl, _, enterTrap_psr c t⟩
  rw [deliver_eq hp hroutine, Dialogue.always_remark]
  exact .map (always_serve hset hrotate (fun _ _ h => h) (fun _ h => h) hentered routine)

/-- `c'` is back at the instruction of `c` after the service of `t`: the mode
and the trap base register are those of the trap, and so are locals 1 and 2 of
the next lower window. -/
structure Delivered (c : Cpu) (t : TrapKind) (c' : Cpu) : Prop extends Served c c' where
  psr : c'.psr = { c.psr with ps := c.psr.s, s := true, et := false }
  tbr : c'.tbr.toNat = c.tbr.toNat - c.tbr.toNat % 0x1000 + t.code.toNat * 16 + c.tbr.toNat % 16
  saved : c'.peek ((c.cwp + c.windows - 1) % c.windows) Reg.l1 = c.pc ∧
    c'.peek ((c.cwp + c.windows - 1) % c.windows) Reg.l2 = c.npc

/-- Of the file, only registers of `names` have changed, each named by a window
and a number. -/
def SameBeside (c c' : Cpu) (names : List (Nat × Reg)) : Prop :=
  ∀ i : Nat, (∀ x ∈ names, i ≠ place c.windows x.1 x.2) → c'.regs[i]? = c.regs[i]?

/-- The two locals in which a trap leaves its addresses. -/
def trapLocals (c : Cpu) : List (Nat × Reg) :=
  [((c.cwp + c.windows - 1) % c.windows, Reg.l1), ((c.cwp + c.windows - 1) % c.windows, Reg.l2)]

theorem forall_mem_trapLocals {P : Nat × Reg → Prop} : (∀ x ∈ c.trapLocals, P x) ↔
    P ((c.cwp + c.windows - 1) % c.windows, Reg.l1) ∧
      P ((c.cwp + c.windows - 1) % c.windows, Reg.l2) := by
  simp [trapLocals]

theorem place_trapLocals (h : c.Shaped) :
    place c.windows ((c.cwp + c.windows - 1) % c.windows) Reg.l1 =
        17 + 16 * below c.windows c.cwp ∧
      place c.windows ((c.cwp + c.windows - 1) % c.windows) Reg.l2 =
        18 + 16 * below c.windows c.cwp := by
  rw [← below_eq_mod h.cwp_lt]
  exact ⟨place_of_lt (below_lt h.cwp_lt) (by decide) (by decide),
    place_of_lt (below_lt h.cwp_lt) (by decide) (by decide)⟩

/-- But for its two locals, an entry leaves the file alone. -/
theorem sameBeside_enterTrap (h : c.Shaped) (t : TrapKind) :
    c.SameBeside (c.enterTrap t) c.trapLocals := by
  intro i hi
  obtain ⟨h1, h2⟩ := forall_mem_trapLocals.mp hi
  rw [(place_trapLocals h).1] at h1
  rw [(place_trapLocals h).2] at h2
  have hfile := getElem?_atHandler h t i
  rwa [if_neg h1, if_neg h2] at hfile

/-- What a service leaves behind, if the two locals are as the entry wrote them. -/
theorem delivered_of_entry (h : c.Shaped) (hs : Served c c')
    (htbr : c'.tbr = (c.enterTrap t).tbr)
    (hpsr : ∃ w, c'.psr = { c.psr with ps := c.psr.s, s := true, et := false, cwp := w })
    (hlocals : ∀ x ∈ c.trapLocals, c'.regs[place c.windows x.1 x.2]? =
      (c.enterTrap t).regs[place c.windows x.1 x.2]?) : Delivered c t c' := by
  have hwindows : c'.windows = c.windows := by rw [windows, hs.config]
  have hfile : ∀ i : Nat, (c.enterTrap t).regs[i]? = _ := getElem?_atHandler h t
  obtain ⟨h1, h2⟩ := forall_mem_trapLocals.mp hlocals
  obtain ⟨hl1, hl2⟩ := place_trapLocals h
  simp only [hfile, hl1, hl2] at h1 h2
  rw [if_pos trivial] at h1
  rw [if_neg (by omega), if_pos trivial] at h2
  refine ⟨hs, ?_, by rw [htbr, toNat_enterTrap_tbr], ?_, ?_⟩
  · obtain ⟨w, hw⟩ := hpsr
    have hcwp : w = c.psr.cwp := by
      have hval := hs.cwp
      unfold cwp at hval
      rw [hw] at hval
      exact Fin.ext hval
    rw [hw, hcwp]
  · unfold peek
    rw [hwindows, hl1, if_neg (by decide), Array.getD_eq_getD_getElem?, h1]
    rfl
  · unfold peek
    rw [hwindows, hl2, if_neg (by decide), Array.getD_eq_getD_getElem?, h2]
    rfl

/-! ### The two services -/

theorem get_belowTrap_eq (h : c.Shaped) (r : Reg) :
    c.belowTrap.get r = c.peek ((c.cwp + c.windows - 2) % c.windows) r := by
  rw [get_belowTrap h fun he => absurd he (below_ne h.two_le), below_below_eq_mod h.two_le h.cwp_lt]

theorem delivered_overflow (h : c.Shaped) (hmode : c.config.trapMode = .internal)
    (hp : c.pendingTrap = some .windowOverflow) : c.deliver.Always fun _ r =>
      r.1 = none ∧ c.Delivered .windowOverflow r.2 ∧ r.2.wim = c.markDown ∧
        c.SameBeside r.2 c.trapLocals := by
  have hentry := always_deliver_entry hp (routine_overflow hmode)
  refine ((always_deliver_overflow h hmode hp).and hentry).mono ?_
  rintro l ⟨refused, c'⟩ ⟨⟨hnone, hs, hwim, hregs, -⟩, htbr, hpsr⟩
  refine ⟨hnone, delivered_of_entry h hs htbr hpsr fun x _ => by rw [hregs], hwim, ?_⟩
  intro i hi
  rw [hregs]
  exact sameBeside_enterTrap h _ i hi

theorem get_aboveTrap_eq (h : c.Shaped) (h3 : 3 ≤ c.windows) (r : Reg) :
    c.aboveTrap.get r = c.peek ((c.cwp + 1) % c.windows) r := by
  rw [get_aboveTrap h fun he => absurd he (above_ne_below h3 h.cwp_lt), above_eq_mod h.cwp_lt]

/-- The locals and ins of a window, as names. -/
def savedNames (w : Nat) : List (Nat × Reg) := (List.range 16).map fun k => (w, Reg.ofNat (16 + k))

theorem mem_savedNames {w : Nat} {r : Reg} (hr : r ∈ Reg.saveArea) : (w, r) ∈ savedNames w := by
  have hlt := r.isLt
  have hge := saveArea_ge r hr
  refine List.mem_map.mpr ⟨r.val - 16, List.mem_range.mpr (by omega), ?_⟩
  rw [Nat.add_sub_cancel' hge]
  exact congrArg _ (Fin.ext (Nat.mod_eq_of_lt hlt))

/-- Words that are read go to the places of their registers. -/
theorem getElem?_absorb_of_ne {rs : List Reg} {i : Nat} (hi : ∀ r ∈ rs, i ≠ c.index r)
    (l : List Access) : (c.absorb rs l).regs[i]? = c.regs[i]? := by
  induction rs generalizing c l with
  | nil => rfl
  | cons r rs ih =>
    obtain ⟨hr, hrest⟩ := List.forall_mem_cons.mp hi
    cases l with
    | nil => rfl
    | cons a l =>
      simp only [absorb]
      split
      · rename_i v _
        have hindex : ∀ r', (c.set r v).index r' = c.index r' :=
          index_congr (congrArg Psr.cwp (set_psr c r v)) (size_set c r v)
        rw [ih (fun r' hr' => by rw [hindex]; exact hrest r' hr')]
        by_cases h0 : r = 0
        · rw [h0, set_zero]
        · rw [regs_set c v h0, Array.getElem?_setIfInBounds_ne hr.symm]
      · exact ih hrest l

theorem getElem?_filled (h : c.Shaped) (l : List Access) {i : Nat}
    (hi : ∀ r ∈ Reg.saveArea, i ≠ place c.windows (above c.windows c.cwp) r) :
    (c.filled l).regs[i]? = (c.enterTrap .windowUnderflow).regs[i]? := by
  refine getElem?_absorb_of_ne (c := c.aboveTrap) (fun r hr => ?_) l
  rw [index_eq h.aboveTrap, aboveTrap_windows, aboveTrap_cwp h]
  exact hi r hr

theorem delivered_underflow (h : c.Shaped) (h3 : 3 ≤ c.windows)
    (hmode : c.config.trapMode = .internal) (hp : c.pendingTrap = some .windowUnderflow) :
    c.deliver.Always fun l r => r.1 = none ∧ c.Delivered .windowUnderflow r.2 ∧
      r.2.wim = c.markUp ∧
      (∀ k < 16, r.2.peek ((c.cwp + 1) % c.windows) (Reg.ofNat (16 + k)) =
        (l[k]?.bind Access.loaded).getD
          (c.peek ((c.cwp + 1) % c.windows) (Reg.ofNat (16 + k)))) ∧
      c.SameBeside r.2 (c.trapLocals ++ savedNames ((c.cwp + 1) % c.windows)) := by
  have habove := above_eq_mod h.cwp_lt
  have hentry := always_deliver_entry hp (routine_underflow hmode)
  refine ((always_deliver_underflow h hmode hp).and hentry).mono ?_
  rintro l ⟨refused, c'⟩ ⟨⟨hnone, hs, hwim, hregs⟩, htbr, hpsr⟩
  refine ⟨hnone, delivered_of_entry h hs htbr hpsr ?_, hwim, fun k hk => ?_, fun i hi => ?_⟩
  · -- the locals of the trap's window are seen from no other one
    have hlocal : ∀ r : Reg, 16 ≤ r.val → r.val < 24 → ∀ r' ∈ Reg.saveArea,
        place c.windows ((c.cwp + c.windows - 1) % c.windows) r ≠
          place c.windows (above c.windows c.cwp) r' := by
      intro r h16 h24 r' _ he
      rw [← below_eq_mod h.cwp_lt] at he
      have hwindow := (place_local (below_lt h.cwp_lt) (above_lt h.cwp_lt) h16 h24).mp he
      exact above_ne_below h3 h.cwp_lt hwindow.1.symm
    rw [forall_mem_trapLocals, hregs]
    exact ⟨getElem?_filled h l (hlocal Reg.l1 (by decide) (by decide)),
      getElem?_filled h l (hlocal Reg.l2 (by decide) (by decide))⟩
  · have hnumber : (Reg.ofNat (16 + k)).val = 16 + k := Nat.mod_eq_of_lt (by omega)
    have hslot := saveArea_slot (Reg.ofNat (16 + k)) (by omega)
    rw [hnumber, Nat.add_sub_cancel_left] at hslot
    rw [peek_underflow hs hregs, ← habove, peek_filled_above h l hslot,
      peek_aboveTrap h (above_lt h.cwp_lt) fun he => absurd he (above_ne_below h3 h.cwp_lt)]
  · obtain ⟨hlocals, hsaved⟩ := List.forall_mem_append.mp hi
    rw [hregs, getElem?_filled h l]
    · exact sameBeside_enterTrap h _ i hlocals
    · intro r hr
      rw [habove]
      exact hsaved _ (mem_savedNames hr)

end Cpu

/-- **What the service of a window trap changes.** In internal mode, let an
overflow be pending, or an underflow with at least three windows. Whatever the
bus answers the delivery succeeds, and goes back to the instruction with nothing
changed but what `Cpu.Delivered` says, the invalid mask and, by a fill, the
window above. A spill asks for the sixteen writes of the locals and ins that the
second window below showed before, in order and to the end; a fill asks for the
sixteen reads of the window above, where each word that is read arrives and a
register whose word is refused keeps its value. Neither asks for anything if the
stack pointer there is zero. -/
theorem service_effect {σ : Type} {c : Cpu} {t : TrapKind} (h : c.Shaped)
    (hmode : c.config.trapMode = .internal) (hp : c.pendingTrap = some t)
    (ht : t = .windowOverflow ∨ t = .windowUnderflow ∧ 3 ≤ c.windows) (bus : Bus σ) (s : σ) :
    let r := (c.deliver.hold bus s).1
    let l := c.deliver.transcript bus s
    r.1 = none ∧ c.Delivered t r.2 ∧
      (t = .windowOverflow →
        let w := (c.cwp + c.windows - 2) % c.windows
        let sp := c.peek w Reg.sp
        l.map Access.asked = (if sp = 0 then [] else (List.range 16).map fun k =>
          (slot sp k, some (c.peek w (Reg.ofNat (16 + k))))) ∧
        r.2.wim.toNat = Cpu.lowered c.windows c.wim.toNat ∧
        c.SameBeside r.2 c.trapLocals) ∧
      (t = .windowUnderflow →
        let w := (c.cwp + 1) % c.windows
        let sp := c.peek w Reg.sp
        l.map Access.asked = (if sp = 0 then [] else (List.range 16).map fun k =>
          (slot sp k, none)) ∧
        (∀ k < 16, r.2.peek w (Reg.ofNat (16 + k)) =
          (l[k]?.bind Access.loaded).getD (c.peek w (Reg.ofNat (16 + k)))) ∧
        r.2.wim.toNat = Cpu.raised c.windows c.wim.toNat ∧
        c.SameBeside r.2 (c.trapLocals ++ Cpu.savedNames w)) := by
  intro r l
  rcases ht with rfl | ⟨rfl, h3⟩
  · obtain ⟨hnone, hdelivered, hwim, hsame⟩ := (Cpu.delivered_overflow h hmode hp).hold bus s
    have hasked := (Cpu.asked_overflow hmode hp).hold bus s
    simp only [Cpu.get_belowTrap_eq h] at hasked
    refine ⟨hnone, hdelivered, fun _ => ⟨hasked, ?_, hsame⟩, nofun⟩
    rw [hwim, Cpu.toNat_markDown h]
  · obtain ⟨hnone, hdelivered, hwim, hfilled, hsame⟩ :=
      (Cpu.delivered_underflow h h3 hmode hp).hold bus s
    have hasked := (Cpu.asked_underflow hmode hp).hold bus s
    simp only [Cpu.get_aboveTrap_eq h h3] at hasked
    refine ⟨hnone, hdelivered, nofun, fun _ => ⟨hasked, hfilled, ?_, hsame⟩⟩
    rw [hwim, Cpu.toNat_markUp h]

/-- A bus that refuses the address 72 and reads 5 at all others. -/
def gapBus : Bus Unit where
  read addr s := (if addr = 72 then .error (.outOfRange addr) else .ok 5, s)
  write addr _ s := (.error (.outOfRange addr), s)

/-- Three windows in front of an invalid one, which has its save area at 64 and 9 in `%l2`. -/
def beforeFill : Cpu :=
  (((threeWindows.setCwp 1).set Reg.l2 9).setCwp 0).raise .windowUnderflow

/-- The third read of the fill is refused: `%l2` keeps its value, and the reads go on. -/
theorem service_effect_refused_read :
    let r := (beforeFill.deliver.hold gapBus ()).1
    let l := beforeFill.deliver.transcript gapBus ()
    beforeFill.pendingTrap = some .windowUnderflow ∧ r.1 = none ∧
      l.map Access.asked = (List.range 16).map (fun k => (slot 64 k, none)) ∧
      r.2.peek 1 Reg.l2 = 9 ∧ r.2.peek 1 24 = 5 ∧ r.2.wim.toNat = 4 := by
  intro r l
  have hshape : beforeFill.Shaped := ⟨by decide, by decide, by decide, by decide⟩
  have h3 : 3 ≤ beforeFill.windows := by decide
  obtain ⟨hnone, -, -, hfill⟩ := service_effect hshape rfl rfl (.inr ⟨rfl, h3⟩) gapBus ()
  obtain ⟨hasked, hfilled, hwim, -⟩ := hfill rfl
  have hsp : beforeFill.peek ((beforeFill.cwp + 1) % beforeFill.windows) Reg.sp = 64 := by decide
  rw [hsp, if_neg (by decide)] at hasked
  refine ⟨rfl, hnone, hasked, ?_, ?_, hwim.trans (by decide)⟩
  · exact (hfilled 2 (by decide)).trans (by decide +kernel)
  · exact (hfilled 8 (by decide)).trans (by decide +kernel)

end SparcIU
