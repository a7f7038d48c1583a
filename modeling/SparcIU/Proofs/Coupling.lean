/-
# Windows and frames coupled

The frames of the reference machine lie in the windows of the processor as far
as these reach, and on the stack below. The current frame is in the current
window, the `r` nearest callers are in the `r` windows above it, the invalid
mark is on the next one, and the callers beyond have been spilled (`Coupled`).
There are at most two windows less than the ring has: the mark keeps one, and
one is for traps, unless it is the same.

An instruction within a frame keeps the coupling (`Coupled.stay`), a save into a
valid window makes `r` one more (`Coupled.save`), a restore from one makes it
one less (`Coupled.restore`). An overflow spills the farthest of the `r` callers
(`Coupled.overflow`), and an underflow fills in the nearest one that was
spilled (`Coupled.underflow`).

Key definitions: `Fits`, `Stacked`, `Coupled`.
Key theorems: `Coupled.stay`, `Coupled.save`, `Coupled.restore`,
`Coupled.overflow`, `Coupled.underflow`.
-/
import SparcIU.Proofs.Frames
import SparcIU.Proofs.Mark
import SparcIU.Proofs.Service
import SparcIU.Proofs.WorkingMemory

namespace SparcIU

open Window

variable {σ : Type} {bus : Bus σ} {mem : WorkingMemory bus}

/-- The stack pointer of a frame that is saved: its area lies in memory, off the
program of `len` words at `base`. -/
structure Fits (mem : WorkingMemory bus) (s : σ) (base : Word) (len : Nat) (sp : Word) : Prop where
  nonzero : sp ≠ 0
  area : mem.Area s sp
  off : ∀ k < 16, ∀ i < len, slot sp k ≠ slot base i

/-- The callers' areas fit, no two of them meet, and each callee's frame pointer
is its caller's stack pointer. -/
structure Stacked (mem : WorkingMemory bus) (s : σ) (base : Word) (len : Nat)
    (callers : List Caller) : Prop where
  fits : ∀ a ∈ callers, Fits mem s base len a.sp
  apart : callers.Pairwise fun a b => AreasApart a.sp b.sp
  linked : ∀ j a b, callers[j]? = some a → callers[j + 1]? = some b → a.kept Reg.fp = b.sp

/-- The `r` nearest callers are in the windows above the current one, the mark
is on the next window, and the other callers are on the stack. -/
structure Coupled (mem : WorkingMemory bus) (c : Cpu) (s : σ) (m : Frames) (r : Nat) : Prop where
  shaped : c.Shaped
  agrees : c.Agrees m
  room : r + 2 ≤ c.windows
  depth : r ≤ m.callers.length
  mark : c.Marked (up c.windows c.cwp (r + 1))
  resident : ∀ j a, j < r → m.callers[j]? = some a → ∀ q : Reg, 16 ≤ q.val →
    c.peek (up c.windows c.cwp (j + 1)) q = a.kept q
  spilled : ∀ j a, r ≤ j → m.callers[j]? = some a → mem.Holds s a.sp a.kept

variable {c c' : Cpu} {s s' : σ} {m m' : Frames} {r : Nat}

/-! ### Within a frame -/

/-- A change that is seen in the current window only. -/
theorem Coupled.congr (h : Coupled mem c s m r) (hs : c'.Shaped) (hagrees : c'.Agrees m')
    (hcallers : m'.callers = m.callers) (hconfig : c'.config = c.config) (hcwp : c'.cwp = c.cwp)
    (hwim : c'.wim = c.wim)
    (hpeek : ∀ k, 1 ≤ k → k + 1 < c.windows → ∀ q : Reg, 16 ≤ q.val →
      c'.peek (up c.windows c.cwp k) q = c.peek (up c.windows c.cwp k) q)
    (hview : mem.view s' = mem.view s) : Coupled mem c' s' m' r := by
  have hwin : c'.windows = c.windows := by rw [Cpu.windows, hconfig]
  have hroom := h.room
  have hmark : c'.Marked (up c'.windows c'.cwp (r + 1)) := by
    rw [hwin, hcwp]
    exact h.mark.congr hconfig hwim
  refine ⟨hs, hagrees, hwin ▸ hroom, hcallers ▸ h.depth, hmark, ?_, ?_⟩
  · intro j a hj ha q hq
    rw [hcallers] at ha
    rw [hwin, hcwp, hpeek (j + 1) (by omega) (by omega) q hq]
    exact h.resident j a hj ha q hq
  · intro j a hj ha k q hq
    rw [hcallers] at ha
    rw [hview]
    exact h.spilled j a hj ha k q hq

theorem Cpu.Agrees.congr (h : c.Agrees m) (hs : c.Shaped) (hs' : c'.Shaped) (hy : c'.y = c.y)
    (hicc : c'.psr.icc = c.psr.icc) (hcwp : c'.cwp = c.cwp)
    (hpeek : ∀ q, c'.peek c.cwp q = c.peek c.cwp q) : c'.Agrees m := by
  refine ⟨hy.trans h.y, hicc.trans h.icc, fun q => ?_⟩
  rw [Cpu.get_eq_peek hs', hcwp, hpeek, ← Cpu.get_eq_peek hs, h.get]

theorem Coupled.of_view (h : Coupled mem c s m r) (hview : mem.view s' = mem.view s) :
    Coupled mem c s' m r :=
  h.congr h.shaped h.agrees rfl rfl rfl rfl (fun _ _ _ _ _ => rfl) hview

theorem Coupled.clearZero (h : Coupled mem c s m r) : Coupled mem c.clearZero s m r := by
  have hs := h.shaped.clearZero
  refine h.congr hs ?_ rfl rfl rfl rfl (fun k _ _ q _ => Cpu.peek_clearZero _ q) rfl
  exact h.agrees.congr h.shaped hs rfl rfl rfl (Cpu.peek_clearZero _)

theorem Coupled.advance (h : Coupled mem c s m r) (hview : mem.view s' = mem.view s) :
    Coupled mem c.advance s' m r := by
  have hs : c.advance.Shaped := h.shaped.congr rfl rfl h.shaped.cwp_lt
  refine (h.of_view hview).congr hs ?_ rfl rfl rfl rfl (fun k _ _ q _ => rfl) rfl
  exact h.agrees.congr h.shaped hs rfl rfl rfl fun q => rfl

/-- An instruction that stays in its frame keeps the coupling. -/
theorem Coupled.stay (h : Coupled mem c s m r) {i : Instr} (hi : i.stays) (fresh : Reg → Word) :
    ∃ m', m.perform fresh i = some m' ∧ m'.callers = m.callers ∧ Coupled mem (c.operate i) s m' r := by
  obtain ⟨m', hm', hagrees, hcallers⟩ := Cpu.agrees_operate h.shaped h.agrees hi fresh
  have hw := Cpu.writes_operate c hi
  obtain ⟨rd, v, hregs⟩ := hw.regs
  have hs : (c.operate i).Shaped := by
    refine h.shaped.congr hw.config ?_ (hw.cwp ▸ h.shaped.cwp_lt)
    rw [hregs, Cpu.size_set]
  refine ⟨m', hm', hcallers, h.congr hs hagrees hcallers hw.config hw.cwp hw.wim ?_ rfl⟩
  intro k h1 hk q hq
  rw [Cpu.peek_congr (hw.config.trans (Cpu.set_config c rd v).symm) hregs]
  exact Cpu.peek_set_of_ne h.shaped (up_lt h.shaped.cwp_lt (by omega)) v
    (.inr (place_up h.shaped.cwp_lt h1 hk hq))

/-- A register that is written in both keeps the coupling. -/
theorem Coupled.set (h : Coupled mem c s m r) (rd : Reg) (v : Word) :
    Coupled mem (c.set rd v) s (m.set rd v) r := by
  obtain ⟨m', hm', -, hc⟩ := h.stay (i := .sethi v rd) rfl m.now
  cases hm'
  exact hc

/-! ### To the next frame -/

theorem Coupled.isInvalid_iff (h : Coupled mem c s m r) {k : Nat} (hk : k < c.windows) :
    c.isInvalid (up c.windows c.cwp k) ↔ k = r + 1 := by
  have hroom := h.room
  rw [h.mark.isInvalid_iff, up_inj hk (by omega)]

theorem Coupled.down_invalid_iff (h : Coupled mem c s m r) :
    c.isInvalid (c.neighbour .down) ↔ r + 2 = c.windows := by
  have hpos := h.shaped.pos
  rw [Cpu.neighbour_down h.shaped, below_eq_up h.shaped.cwp_lt, h.isInvalid_iff (by omega)]
  omega

theorem Coupled.up_invalid_iff (h : Coupled mem c s m r) :
    c.isInvalid (c.neighbour .up) ↔ r = 0 := by
  have htwo := h.shaped.two_le
  rw [Cpu.neighbour_up h.shaped, ← up_one h.shaped.cwp_lt, h.isInvalid_iff (by omega)]
  omega

/-- The next lower window shows the new frame. -/
theorem Coupled.agrees_enter (h : Coupled mem c s m r) :
    (c.rotate .down).Agrees (m.enter fun q => c.peek (c.neighbour .down) q) := by
  have hs := h.shaped
  refine ⟨h.agrees.y, h.agrees.icc, fun q => ?_⟩
  have hget : (c.rotate .down).get q = c.peek (c.neighbour .down) q :=
    Cpu.get_setCwp hs (Cpu.neighbour_lt hs .down) q
  rw [hget]
  by_cases h0 : q = 0
  · subst h0
    rfl
  · show _ = if q = 0 then 0 else if q.val < 8 then m.now q else if q.val < 24 then _ else m.now (q - 16)
    rw [if_neg h0]
    by_cases h8 : q.val < 8
    · rw [if_pos h8, h.agrees.now hs h0]
      exact Cpu.peek_global _ _ h8
    · rw [if_neg h8]
      by_cases h24 : q.val < 24
      · rw [if_pos h24]
      · -- the ins of the new frame are the caller's outs
        have hsub : (q - 16).val = q.val - 16 := Reg.val_sub_sixteen (by omega)
        have hne : q - 16 ≠ 0 := by
          intro he
          rw [he, Fin.val_zero] at hsub
          omega
        have hshared : c.peek (above c.windows (below c.windows c.cwp)) (q - 16)
            = c.peek (below c.windows c.cwp) q := Cpu.peek_above (by omega) (by omega)
        rw [above_below hs.cwp_lt] at hshared
        rw [if_neg h24, h.agrees.now hs hne, hshared, Cpu.neighbour_down hs]

/-- The next higher window shows the nearest caller's frame. -/
theorem Coupled.agrees_leave (h : Coupled mem c s m (r + 1)) {a : Caller} {rest : List Caller}
    (hcallers : m.callers = a :: rest) : (c.rotate .up).Agrees (m.leave a rest) := by
  have hs := h.shaped
  refine ⟨h.agrees.y, h.agrees.icc, fun q => ?_⟩
  have hget : (c.rotate .up).get q = c.peek (above c.windows c.cwp) q := by
    rw [← Cpu.neighbour_up hs]
    exact Cpu.get_setCwp hs (Cpu.neighbour_lt hs .up) q
  rw [hget]
  by_cases h0 : q = 0
  · subst h0
    rfl
  · show _ = if q = 0 then 0 else if q.val < 8 then m.now q else if q.val < 16 then m.now (q + 16) else _
    rw [if_neg h0]
    by_cases h8 : q.val < 8
    · rw [if_pos h8, h.agrees.now hs h0]
      exact Cpu.peek_global _ _ h8
    · rw [if_neg h8]
      by_cases h16 : q.val < 16
      · -- the caller's outs are the callee's ins
        have hadd : (q + 16).val = q.val + 16 := Reg.val_add_sixteen h16
        have hne : q + 16 ≠ 0 := by
          intro he
          rw [he, Fin.val_zero] at hadd
          omega
        rw [if_pos h16, h.agrees.now hs hne]
        exact Cpu.peek_above (by omega) hadd.symm
      · have hfirst : m.callers[0]? = some a := by rw [hcallers]; rfl
        rw [if_neg h16, ← up_one hs.cwp_lt]
        exact h.resident 0 a (Nat.succ_pos r) hfirst q (by omega)

/-- The window below takes the new frame, and the caller is the first of the
resident ones. -/
theorem Coupled.enter (h : Coupled mem c s m r) (hroom : r + 2 ≠ c.windows) :
    Coupled mem (c.rotate .down) s (m.enter fun q => c.peek (c.neighbour .down) q) (r + 1) := by
  have hs := h.shaped
  have hlt := h.room
  have hcwp : (c.rotate .down).cwp = below c.windows c.cwp := Cpu.rotate_down_cwp hs
  have hroom' : r + 1 + 2 ≤ c.windows := by omega
  have hmark : (c.rotate .down).Marked (up c.windows (c.rotate .down).cwp (r + 1 + 1)) := by
    rw [hcwp, up_below hs.cwp_lt (by omega)]
    exact h.mark.congr rfl rfl
  refine ⟨hs.rotate .down, h.agrees_enter, hroom', Nat.succ_le_succ h.depth, hmark, ?_, ?_⟩
  · intro j a hj ha q hq
    show c.peek (up c.windows (c.rotate .down).cwp (j + 1)) q = a.kept q
    rw [hcwp, up_below hs.cwp_lt (by omega)]
    cases j with
    | zero =>
      obtain rfl := Option.some.inj ha
      rw [up_zero hs.cwp_lt, ← Cpu.get_eq_peek hs]
      exact h.agrees.get q
    | succ j => exact h.resident j a (by omega) ha q hq
  · intro j a hj ha
    obtain ⟨j, rfl⟩ : ∃ j', j = j' + 1 := Nat.exists_eq_succ_of_ne_zero (by omega)
    exact h.spilled j a (by omega) ha

/-- The window above shows the nearest caller's frame again. -/
theorem Coupled.leave (h : Coupled mem c s m (r + 1)) {a : Caller} {rest : List Caller}
    (hcallers : m.callers = a :: rest) : Coupled mem (c.rotate .up) s (m.leave a rest) r := by
  have hs := h.shaped
  have hlt := h.room
  have hcwp : (c.rotate .up).cwp = above c.windows c.cwp := Cpu.rotate_up_cwp hs
  have hrest : ∀ (j : Nat) b, rest[j]? = some b → m.callers[j + 1]? = some b := by
    intro j b hb
    rw [hcallers]
    exact hb
  have hroom : r + 2 ≤ c.windows := by omega
  have hdepth : r ≤ rest.length := by
    have hle := h.depth
    rw [hcallers] at hle
    exact Nat.le_of_succ_le_succ hle
  have hmark : (c.rotate .up).Marked (up c.windows (c.rotate .up).cwp (r + 1)) := by
    rw [hcwp, up_above (by omega)]
    exact h.mark.congr rfl rfl
  refine ⟨hs.rotate .up, h.agrees_leave hcallers, hroom, hdepth, hmark, ?_, ?_⟩
  · intro j b hj hb q hq
    show c.peek (up c.windows (c.rotate .up).cwp (j + 1)) q = b.kept q
    rw [hcwp, up_above (by omega)]
    exact h.resident (j + 1) b (by omega) (hrest j b hb) q hq
  · intro j b hj hb
    exact h.spilled (j + 1) b (by omega) (hrest j b hb)

/-- **A save into a valid window.** -/
theorem Coupled.save (h : Coupled mem c s m r) (hroom : r + 2 ≠ c.windows) (rs1 : Reg)
    (src : Operand) (rd : Reg) : ∃ fresh m', m.perform fresh (.save rs1 src rd) = some m' ∧
      m'.callers = ⟨m.get Reg.sp, m.get⟩ :: m.callers ∧
      Coupled mem (c.operate (.save rs1 src rd)) s m' (r + 1) := by
  refine ⟨fun q => c.peek (c.neighbour .down) q, _, rfl, rfl, ?_⟩
  have hvalid : ¬ c.isInvalid (c.neighbour .down) := fun hi => hroom (h.down_invalid_iff.mp hi)
  simp only [Cpu.operate]
  rw [Cpu.moveWindow_of_clear hvalid, h.agrees.sum]
  exact (h.enter hroom).set rd _

/-- **A restore from a valid window.** -/
theorem Coupled.restore (h : Coupled mem c s m (r + 1)) {a : Caller} {rest : List Caller}
    (hcallers : m.callers = a :: rest) (rs1 : Reg) (src : Operand) (rd : Reg)
    (fresh : Reg → Word) : ∃ m', m.perform fresh (.restore rs1 src rd) = some m' ∧
      m'.callers = rest ∧ Coupled mem (c.operate (.restore rs1 src rd)) s m' r := by
  refine ⟨(m.leave a rest).set rd (m.sum rs1 src), ?_, rfl, ?_⟩
  · simp only [Frames.perform, hcallers]
  · have hvalid : ¬ c.isInvalid (c.neighbour .up) := fun hi =>
      absurd (h.up_invalid_iff.mp hi) (Nat.succ_ne_zero r)
    simp only [Cpu.operate]
    rw [Cpu.moveWindow_of_clear hvalid, h.agrees.sum]
    exact (h.leave hcallers).set rd _

/-! ### Traps -/

/-- A callee's frame pointer is its caller's stack pointer. -/
def Frames.Linked (m : Frames) : Prop := ∀ a ∈ m.callers.head?, m.get Reg.fp = a.sp

theorem linked_nil {m : Frames} (h : m.callers = []) : m.Linked := by
  rw [Frames.Linked, h]
  rintro a ⟨⟩

theorem linked_cons {m : Frames} {a : Caller} {rest : List Caller} (h : m.callers = a :: rest)
    (hfp : m.get Reg.fp = a.sp) : m.Linked := by
  rw [Frames.Linked, h]
  rintro b ⟨⟩
  exact hfp

/-- The stack pointer of a caller is seen in its window, and in the window of
the first one that was spilled. -/
theorem Coupled.sp_eq {s₀ : σ} {base : Word} {len : Nat} (h : Coupled mem c s m r)
    (hstack : Stacked mem s₀ base len m.callers) (hfp : m.Linked) {j : Nat} {a : Caller} (hj : j ≤ r)
    (ha : m.callers[j]? = some a) : c.peek (up c.windows c.cwp (j + 1)) Reg.sp = a.sp := by
  have hs := h.shaped
  have hroom := h.room
  rw [← above_up hs.cwp_lt (by omega), Cpu.peek_above (r := Reg.fp) (by decide) (by decide)]
  cases j with
  | zero =>
    rw [up_zero hs.cwp_lt, ← Cpu.get_eq_peek hs, h.agrees.get]
    exact hfp a (by rw [List.head?_eq_getElem?]; exact ha)
  | succ i =>
    obtain ⟨hlt, -⟩ := List.getElem?_eq_some_iff.mp ha
    have hb := List.getElem?_eq_getElem (Nat.lt_of_succ_lt hlt)
    rw [h.resident i _ hj hb Reg.fp (by decide)]
    exact hstack.linked i _ a hb ha

/-- A trap that is raised is not seen. -/
theorem Coupled.raise (h : Coupled mem c s m r) (t : TrapKind) : Coupled mem (c.raise t) s m r := by
  have hs : (c.raise t).Shaped := h.shaped.congr rfl rfl h.shaped.cwp_lt
  refine h.congr hs ?_ rfl rfl rfl rfl (fun k _ _ q _ => rfl) rfl
  exact h.agrees.congr h.shaped hs rfl rfl rfl fun q => rfl

theorem pairwise_getElem? {α : Type} {R : α → α → Prop} {l : List α} (h : l.Pairwise R) {i j : Nat}
    {a b : α} (hi : l[i]? = some a) (hj : l[j]? = some b) (hij : i < j) : R a b := by
  obtain ⟨hi', rfl⟩ := List.getElem?_eq_some_iff.mp hi
  obtain ⟨hj', rfl⟩ := List.getElem?_eq_some_iff.mp hj
  exact List.pairwise_iff_getElem.mp h i j hi' hj' hij

/-- The window that an overflow spills is the farthest resident caller's. -/
theorem Coupled.get_belowTrap (h : Coupled mem c s m (r + 1)) (hfull : r + 3 = c.windows) (q : Reg) :
    c.belowTrap.get q = c.peek (up c.windows c.cwp (r + 1)) q := by
  have hs := h.shaped
  have hwindow : below c.windows (below c.windows c.cwp) = up c.windows c.cwp (r + 1) := by
    rw [below_eq_up hs.cwp_lt, show c.windows - 1 = r + 1 + 1 by omega,
      below_up hs.cwp_lt (by omega)]
  have hbeyond := up_ne_below (w := c.cwp) (show r + 1 + 1 < c.windows by omega)
  rw [Cpu.get_belowTrap hs fun he => absurd (hwindow.symm.trans he) hbeyond, hwindow]

/-- What a spill does to the memory: it fills the area at the stack pointer, and
the rest stays. -/
theorem spilled_area {addr : Word} (harea : mem.Area s addr) :
    let s' := ((c.storeWindow addr Reg.saveArea).hold bus s).2
    mem.Holds s' addr c.get ∧ (∀ a, (∀ k < 16, a ≠ slot addr k) → mem.view s' a = mem.view s a) ∧
      mem.SameExtent s s' := by
  obtain ⟨hholds, hframe⟩ := mem.view_storeWindow c (Nat.le_refl Reg.saveArea.length) harea
  refine ⟨hholds, hframe, fun a => ?_⟩
  by_cases ha : ∃ k < 16, a = slot addr k
  · obtain ⟨k, hk, rfl⟩ := ha
    have hslot : Reg.saveArea[k]? = some Reg.saveArea[k] := List.getElem?_eq_getElem hk
    rw [hholds k _ hslot, (harea k hk).1]
    rfl
  · rw [hframe a fun k hk he => ha ⟨k, hk, he⟩]

theorem Cpu.Agrees.served (h : c.Agrees m) (hserved : Cpu.Served c c')
    (hget : ∀ q, c'.get q = c.get q) : c'.Agrees m :=
  ⟨hserved.y.trans h.y, hserved.icc.trans h.icc, fun q => (hget q).trans (h.get q)⟩

/-- After the service of an overflow one caller fewer is in the windows. -/
theorem Coupled.spill (h : Coupled mem c s m (r + 1)) (hserved : Cpu.Served c c')
    (hwim : c'.wim = c.markDown) (hregs : c'.regs = (c.enterTrap .windowOverflow).regs)
    (hstack : ∀ j a, r ≤ j → m.callers[j]? = some a → mem.Holds s' a.sp a.kept) :
    Coupled mem c' s' m r := by
  have hs := h.shaped
  have hroom := h.room
  have hwin : c'.windows = c.windows := by rw [Cpu.windows, hserved.config]
  have hagrees := h.agrees.served hserved fun q => Cpu.get_overflow hs hserved hregs q
  have hmark : c'.Marked (up c'.windows c'.cwp (r + 1)) := by
    have hdown := Cpu.markDown_single hs h.mark
    rw [below_up hs.cwp_lt (by omega)] at hdown
    rw [hwin, hserved.cwp]
    exact hdown.congr hserved.config hwim
  refine ⟨hserved.shaped_overflow hs hregs, hagrees, by omega, Nat.le_of_succ_le h.depth, hmark, ?_,
    hstack⟩
  intro j a hj ha q hq
  -- the window of the trap is beyond the resident ones
  have hbeyond := up_ne_below (w := c.cwp) (show j + 1 + 1 < c.windows by omega)
  rw [hwin, hserved.cwp, Cpu.peek_overflow hs hserved hregs (up_lt hs.cwp_lt (by omega))]
  · exact h.resident j a (Nat.lt_succ_of_lt hj) ha q hq
  · intro he
    exact absurd he hbeyond

/-- After the service of an underflow the nearest caller is in the window above. -/
theorem Coupled.fill (h : Coupled mem c s m 0) (h3 : 3 ≤ c.windows) (hserved : Cpu.Served c c')
    (hwim : c'.wim = c.markUp) {l : List Access} (hregs : c'.regs = (c.filled l).regs) {a : Caller}
    (ha : m.callers[0]? = some a)
    (hloaded : ∀ (k : Nat) q, Reg.saveArea[k]? = some q → l[k]?.bind Access.loaded = some (a.kept q))
    (hview : mem.view s' = mem.view s) : Coupled mem c' s' m 1 := by
  have hs := h.shaped
  have hwin : c'.windows = c.windows := by rw [Cpu.windows, hserved.config]
  have hget : ∀ q, c'.get q = c.get q := fun q => by
    rw [Cpu.get_underflow hs hserved hregs, Cpu.peek_filled_three hs h3]
  have hdepth : 1 ≤ m.callers.length := (List.getElem?_eq_some_iff.mp ha).1
  have hmark : c'.Marked (up c'.windows c'.cwp (1 + 1)) := by
    have hup := Cpu.markUp_single hs h.mark
    rw [above_up hs.cwp_lt (by omega)] at hup
    rw [hwin, hserved.cwp]
    exact hup.congr hserved.config hwim
  refine ⟨hserved.shaped_underflow hs hregs, h.agrees.served hserved hget, by omega, hdepth, hmark,
    ?_, ?_⟩
  · intro j b hj hb q hq
    obtain rfl := Nat.lt_one_iff.mp hj
    obtain rfl : a = b := Option.some.inj (ha.symm.trans hb)
    have hslot := Cpu.saveArea_slot q hq
    rw [hwin, hserved.cwp, up_one hs.cwp_lt, Cpu.peek_underflow hserved hregs,
      Cpu.peek_filled_above hs l hslot, hloaded _ q hslot]
    rfl
  · intro j b hj hb k q hq
    rw [hview]
    exact h.spilled j b (Nat.zero_le j) hb k q hq

section Service

variable {base : Word} {len : Nat}

/-- One more caller is put on the stack, and those that were there stay. -/
theorem Stacked.holds_spill {callers : List Caller} (h : Stacked mem s base len callers) {a : Caller}
    (ha : callers[r]? = some a)
    (hspilled : ∀ j b, r + 1 ≤ j → callers[j]? = some b → mem.Holds s b.sp b.kept)
    (hholds : mem.Holds s' a.sp a.kept)
    (hframe : ∀ x, (∀ k < 16, x ≠ slot a.sp k) → mem.view s' x = mem.view s x) (j : Nat) (b : Caller)
    (hj : r ≤ j) (hb : callers[j]? = some b) : mem.Holds s' b.sp b.kept := by
  rcases Nat.eq_or_lt_of_le hj with rfl | hj
  · obtain rfl : a = b := Option.some.inj (ha.symm.trans hb)
    exact hholds
  · intro k q hq
    have hk : k < 16 := (List.getElem?_eq_some_iff.mp hq).1
    have hapart := pairwise_getElem? h.apart ha hb hj
    rw [hframe _ fun k' hk' he => hapart k' hk' k hk he.symm]
    exact hspilled j b hj hb k q hq

/-- **An overflow keeps the coupling.** The farthest resident caller goes to its
stack. -/
theorem Coupled.overflow (h : Coupled mem c s m (r + 1)) (hfull : r + 3 = c.windows)
    (hmode : c.config.trapMode = .internal) (hp : c.pendingTrap = some .windowOverflow)
    (hstack : Stacked mem s base len m.callers) (hfp : m.Linked) :
    ∃ c' s', c.deliver.hold bus s = ((none, c'), s') ∧ Cpu.Served c c' ∧ Coupled mem c' s' m r ∧
      mem.SameExtent s s' ∧ ∀ i < len, mem.view s' (slot base i) = mem.view s (slot base i) := by
  have hs := h.shaped
  obtain ⟨a, ha⟩ : ∃ a, m.callers[r]? = some a := ⟨_, List.getElem?_eq_getElem h.depth⟩
  have hfits := hstack.fits a (List.mem_of_getElem? ha)
  -- the spilled window is the caller's, and its stack pointer is the caller's
  have hget := h.get_belowTrap hfull
  have hsp : c.belowTrap.get Reg.sp = a.sp := by
    rw [hget]
    exact h.sp_eq hstack hfp (Nat.le_succ r) ha
  have hkept : ∀ q : Reg, 16 ≤ q.val → c.belowTrap.get q = a.kept q := by
    intro q hq
    rw [hget]
    exact h.resident r a (Nat.lt_succ_self r) ha q hq
  have hdevice := Cpu.device_overflow bus s hmode hp (by rw [hsp]; exact hfits.nonzero)
  rw [hsp] at hdevice
  have hheard := mem.hear_ok (.enters c.pc c.npc c.cwp .windowOverflow) s
  generalize bus.hear (.enters c.pc c.npc c.cwp .windowOverflow) s = s₁ at hdevice hheard
  have harea : mem.Area s₁ a.sp := hfits.area.of_sameExtent fun b => by rw [hheard]
  obtain ⟨hholds, hframe, hextent⟩ := spilled_area (c := c.belowTrap) harea
  rw [← hdevice] at hholds hframe hextent
  have hsaved : mem.Holds (c.deliver.hold bus s).2 a.sp a.kept := by
    intro k q hq
    rw [hholds k q hq, hkept q (Cpu.saveArea_ge q (List.mem_of_getElem? hq))]
  have hothers := hstack.holds_spill ha h.spilled hsaved fun x hx => by rw [hframe x hx, hheard]
  obtain ⟨hnone, hserved, hwim, hregs, -⟩ := (Cpu.always_deliver_overflow hs hmode hp).hold bus s
  refine ⟨(c.deliver.hold bus s).1.2, (c.deliver.hold bus s).2, Prod.ext (Prod.ext hnone rfl) rfl,
    hserved, h.spill hserved hwim hregs hothers, fun b => ?_, fun i hi => ?_⟩
  · rw [hextent, hheard]
  · rw [hframe _ fun k hk he => hfits.off k hk i hi he.symm, hheard]

/-- **An underflow keeps the coupling.** The nearest caller comes back from its
stack. -/
theorem Coupled.underflow (h : Coupled mem c s m 0) (h3 : 3 ≤ c.windows)
    (hmode : c.config.trapMode = .internal) (hp : c.pendingTrap = some .windowUnderflow)
    (hstack : Stacked mem s base len m.callers) (hfp : m.Linked) (hne : m.callers ≠ []) :
    ∃ c' s', c.deliver.hold bus s = ((none, c'), s') ∧ Cpu.Served c c' ∧ Coupled mem c' s' m 1 ∧
      mem.view s' = mem.view s := by
  have hs := h.shaped
  obtain ⟨a, rest, hcallers⟩ := List.exists_cons_of_ne_nil hne
  have ha : m.callers[0]? = some a := by rw [hcallers]; rfl
  have hfits := hstack.fits a (List.mem_of_getElem? ha)
  -- the window above shows the caller's outs, the stack pointer among them
  have hsp : c.aboveTrap.get Reg.sp = a.sp := by
    have hbeyond := up_ne_below (w := c.cwp) (show 1 + 1 < c.windows from h3)
    rw [Cpu.get_eq_peek hs.aboveTrap, Cpu.aboveTrap_cwp hs, ← up_one hs.cwp_lt,
      Cpu.peek_aboveTrap hs (up_lt hs.cwp_lt (by omega)) fun he => absurd he hbeyond]
    exact h.sp_eq hstack hfp (Nat.le_refl 0) ha
  have hnonzero : c.aboveTrap.get Reg.sp ≠ 0 := by
    rw [hsp]
    exact hfits.nonzero
  have hdevice := Cpu.device_underflow bus s hmode hp hnonzero
  have htranscript := Cpu.transcript_underflow bus s hmode hp hnonzero
  rw [hsp] at hdevice htranscript
  have hheard := mem.hear_ok (.enters c.pc c.npc c.cwp .windowUnderflow) s
  generalize bus.hear (.enters c.pc c.npc c.cwp .windowUnderflow) s = s₁ at hdevice htranscript hheard
  have hholds : mem.Holds s₁ a.sp a.kept := by
    intro k q hq
    rw [hheard]
    exact h.spilled 0 a (Nat.le_refl 0) ha k q hq
  obtain ⟨hloaded, hsame⟩ := mem.loaded_loadWindow c.aboveTrap hholds
  rw [← htranscript] at hloaded
  have hview : mem.view (c.deliver.hold bus s).2 = mem.view s := by
    rw [hdevice, hsame, hheard]
  obtain ⟨hnone, hserved, hwim, hregs⟩ := (Cpu.always_deliver_underflow hs hmode hp).hold bus s
  exact ⟨(c.deliver.hold bus s).1.2, (c.deliver.hold bus s).2, Prod.ext (Prod.ext hnone rfl) rfl,
    hserved, h.fill h3 hserved hwim hregs ha hloaded hview, hview⟩

end Service

end SparcIU
