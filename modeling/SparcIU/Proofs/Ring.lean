/-
# The ring of windows

With `n` windows the file has `8 + 16 n` places. `Window.place n w r` is the
place of register `r` seen from window `w`; the windows next to `w` are
`Window.above n w` and `Window.below n w`, or `Window.next n t w` by the way
`t` of a turn, and `Window.up n w k` is the one `k` higher. Within one window
the 32 registers have places of their own (`Window.place_inj`), and of two
different windows only neighbours share windowed places: the ins of the one are
the outs of the next higher one (`Window.place_above`, `Window.place_up`). So a
register that is written changes what a window shows only where its place is
seen (`Cpu.peek_set`).

Key definitions: `Window.place`, `Window.above`, `Window.below`, `Window.next`,
`Window.up`, `Cpu.Shaped`, `Cpu.peek`.
Key theorems: `Window.place_inj`, `Window.place_above`, `Window.place_up`,
`Cpu.get_set`, `Cpu.peek_set`.
-/
import SparcIU.Cpu.Window
import Mathlib.Tactic.SplitIfs

namespace SparcIU
namespace Window

/-- The place of a register of window `w` in the file of `n` windows. -/
def place (n w : Nat) (r : Reg) : Nat :=
  if r.val < 8 then r.val
  else if r.val + 16 * w < 8 + 16 * n then r.val + 16 * w
  else r.val + 16 * w - 16 * n

/-- The next higher window; past the last one comes the first. -/
def above (n w : Nat) : Nat := if w + 1 = n then 0 else w + 1

/-- The next lower window. -/
def below (n w : Nat) : Nat := if w = 0 then n - 1 else w - 1

/-- The next window on the way of a turn. -/
def next (n : Nat) : Turn → Nat → Nat
  | .up => above n
  | .down => below n

/-- The window `k` above, for less than a whole turn. -/
def up (n w k : Nat) : Nat := if w + k < n then w + k else w + k - n

variable {n w : Nat}

theorem above_lt (h : w < n) : above n w < n := by
  unfold above; split <;> omega

theorem below_lt (h : w < n) : below n w < n := by
  unfold below; split <;> omega

theorem next_lt (t : Turn) (h : w < n) : next n t w < n := by
  cases t with
  | up => exact above_lt h
  | down => exact below_lt h

theorem below_ne (h2 : 2 ≤ n) : below n w ≠ w := by
  unfold below
  split <;> omega

theorem next_ne (t : Turn) (h2 : 2 ≤ n) : next n t w ≠ w := by
  cases t with
  | up =>
    show above n w ≠ w
    unfold above
    split <;> omega
  | down => exact below_ne h2

/-- With three windows, the second next one is not the window itself. -/
theorem next_next_ne (t : Turn) (h3 : 3 ≤ n) : next n t (next n t w) ≠ w := by
  cases t with
  | up =>
    show above n (above n w) ≠ w
    unfold above
    split_ifs <;> omega
  | down =>
    show below n (below n w) ≠ w
    unfold below
    split_ifs <;> omega

theorem above_eq_mod (h : w < n) : above n w = (w + 1) % n := by
  unfold above
  by_cases hlast : w + 1 = n
  · rw [if_pos hlast, hlast, Nat.mod_self]
  · rw [if_neg hlast, Nat.mod_eq_of_lt (by omega)]

theorem below_eq_mod (h : w < n) : below n w = (w + n - 1) % n := by
  unfold below
  by_cases hfirst : w = 0
  · rw [if_pos hfirst, hfirst, Nat.zero_add, Nat.mod_eq_of_lt (by omega)]
  · rw [if_neg hfirst, show w + n - 1 = w - 1 + n by omega, Nat.add_mod_right,
      Nat.mod_eq_of_lt (by omega)]

theorem above_below (h : w < n) : above n (below n w) = w := by
  unfold above below; split <;> split <;> omega

/-- With three windows, the two next to a window are different. -/
theorem above_ne_below (h3 : 3 ≤ n) (h : w < n) : above n w ≠ below n w := by
  intro he
  have hback : above n (above n w) = w := by rw [he, above_below h]
  exact next_next_ne .up h3 hback

/-- The window below the next lower one, by its number. -/
theorem below_below_eq_mod (h2 : 2 ≤ n) (h : w < n) :
    below n (below n w) = (w + n - 2) % n := by
  rw [below_eq_mod (below_lt h)]
  unfold below
  by_cases hfirst : w = 0
  · rw [if_pos hfirst, hfirst, show n - 1 + n - 1 = 0 + n - 2 + n by omega, Nat.add_mod_right]
  · rw [if_neg hfirst, show w - 1 + n - 1 = w + n - 2 by omega]

theorem below_above : below n (above n w) = w := by
  unfold above below; split <;> split <;> omega

theorem up_lt (h : w < n) {k : Nat} (hk : k < n) : up n w k < n := by
  unfold up; split <;> omega

theorem up_zero (h : w < n) : up n w 0 = w := if_pos h

theorem up_one (h : w < n) : up n w 1 = above n w := by
  unfold up above; split <;> split <;> omega

theorem above_up (h : w < n) {k : Nat} (hk : k + 1 < n) : above n (up n w k) = up n w (k + 1) := by
  unfold up above; split_ifs <;> omega

/-- Seen from the next higher window, all windows are one nearer. -/
theorem up_above {k : Nat} (hk : k + 1 < n) : up n (above n w) k = up n w (k + 1) := by
  unfold up above; split_ifs <;> omega

/-- Seen from the next lower window, all windows are one farther. -/
theorem up_below (h : w < n) {k : Nat} (hk : k + 1 < n) : up n (below n w) (k + 1) = up n w k := by
  unfold up below; split_ifs <;> omega

theorem below_up (h : w < n) {k : Nat} (hk : k + 1 < n) : below n (up n w (k + 1)) = up n w k := by
  rw [← above_up h hk, below_above]

/-- The next lower window is the last one on the way up. -/
theorem below_eq_up (h : w < n) : below n w = up n w (n - 1) := by
  unfold up below; split <;> split <;> omega

/-- Only the last window on the way up is the next lower one. -/
theorem up_ne_below {k : Nat} (hk : k + 1 < n) : up n w k ≠ below n w := by
  unfold up below; split <;> split <;> omega

theorem up_inj {j k : Nat} (hj : j < n) (hk : k < n) :
    up n w j = up n w k ↔ j = k := by
  unfold up; split <;> split <;> omega

theorem place_lt (h : w < n) (r : Reg) : place n w r < 8 + 16 * n := by
  have := r.isLt
  unfold place
  split_ifs <;> omega

/-- Outs and locals lie in a row that does not reach the end. -/
theorem place_of_lt (hw : w < n) {r : Reg} (h8 : 8 ≤ r.val) (h24 : r.val < 24) :
    place n w r = r.val + 16 * w := by
  unfold place
  rw [if_neg (by omega), if_pos (by omega)]

theorem place_eq_zero {r : Reg} : place n w r = 0 ↔ r = 0 := by
  rw [Fin.ext_iff, Fin.val_zero]
  unfold place
  split
  · exact Iff.rfl
  · split <;> omega

/-- The registers of one window have different places. -/
theorem place_inj (hn : 2 ≤ n) {r r' : Reg} :
    place n w r = place n w r' ↔ r = r' := by
  have := r.isLt
  have := r'.isLt
  rw [Fin.ext_iff]
  unfold place
  split_ifs <;> omega

/-- The ins of a window are the outs of the next higher one. -/
theorem place_above {r r' : Reg} (hr : 24 ≤ r.val) (hr' : r'.val + 16 = r.val) :
    place n w r = place n (above n w) r' := by
  have := r.isLt
  unfold place above
  split_ifs <;> omega

/-- The locals of a window are seen from no other one. -/
theorem place_local {w' : Nat} (hw : w < n) (hw' : w' < n) {r r' : Reg} (h16 : 16 ≤ r.val)
    (h24 : r.val < 24) : place n w r = place n w' r' ↔ w = w' ∧ r = r' := by
  have := r'.isLt
  rw [Fin.ext_iff]
  unfold place
  split_ifs <;> omega

/-- Nothing of a window is seen in the locals and ins of a higher one, up to the
last but one: the last one's ins are the window's own outs. -/
theorem place_up (h : w < n) {k : Nat} (h1 : 1 ≤ k) (hk : k + 1 < n) {r r' : Reg}
    (hr : 16 ≤ r.val) : place n w r' ≠ place n (up n w k) r := by
  have := r.isLt
  have := r'.isLt
  unfold place up
  split_ifs <;> omega

/-- Of two windows, the other one's ins are the window's outs, and that is all
they show of each other's locals and ins. -/
theorem place_above_two {w : Nat} (hw : w < 2) {r r' : Reg} (hr : 16 ≤ r.val) :
    place 2 (above 2 w) r = place 2 w r' ↔ 24 ≤ r.val ∧ r'.val + 16 = r.val := by
  have := r.isLt
  have := r'.isLt
  unfold place above
  split_ifs <;> omega

end Window

namespace Cpu

open Window

/-- The number of windows. -/
abbrev windows (c : Cpu) : Nat := c.config.windows.toNat

/-- What a host promises of a processor it builds, and what every operation
keeps: the configuration is valid, the file has a place for every register, and
the current window exists. -/
structure Shaped (c : Cpu) : Prop where
  two_le : 2 ≤ c.windows
  le : c.windows ≤ 32
  size : c.regs.size = 8 + 16 * c.windows
  cwp_lt : c.cwp < c.windows

/-- What register `r` holds seen from window `w`. -/
def peek (c : Cpu) (w : Nat) (r : Reg) : Word :=
  if r = 0 then 0 else c.regs.getD (place c.windows w r) 0

variable {c : Cpu}

theorem Shaped.pos (h : c.Shaped) : 0 < c.windows := Nat.lt_of_lt_of_le (by decide) h.two_le

/-- Shape is a matter of the configuration, the file's length and the window. -/
theorem Shaped.congr {c' : Cpu} (h : c.Shaped) (hcfg : c'.config = c.config)
    (hsize : c'.regs.size = c.regs.size) (hcwp : c'.cwp < c.windows) : c'.Shaped := by
  have hw : c'.windows = c.windows := by rw [windows, hcfg]
  refine ⟨hw ▸ h.two_le, hw ▸ h.le, ?_, hw ▸ hcwp⟩
  rw [hsize, h.size, hw]

/-! ### What writing a register leaves alone -/

section Frame

variable (c : Cpu) (r : Reg) (v : Word)

@[simp] theorem set_zero : c.set 0 v = c := rfl

@[simp] theorem set_pc : (c.set r v).pc = c.pc := by unfold set; split <;> rfl
@[simp] theorem set_npc : (c.set r v).npc = c.npc := by unfold set; split <;> rfl
@[simp] theorem set_psr : (c.set r v).psr = c.psr := by unfold set; split <;> rfl
@[simp] theorem set_wim : (c.set r v).wim = c.wim := by unfold set; split <;> rfl
@[simp] theorem set_tbr : (c.set r v).tbr = c.tbr := by unfold set; split <;> rfl
@[simp] theorem set_y : (c.set r v).y = c.y := by unfold set; split <;> rfl
@[simp] theorem set_config : (c.set r v).config = c.config := by unfold set; split <;> rfl
@[simp] theorem set_cwp : (c.set r v).cwp = c.cwp := by unfold set; split <;> rfl
@[simp] theorem set_windows : (c.set r v).windows = c.windows := by unfold set; split <;> rfl

@[simp] theorem set_pendingTrap : (c.set r v).pendingTrap = c.pendingTrap := by
  unfold set; split <;> rfl

@[simp] theorem set_pendingAnnul : (c.set r v).pendingAnnul = c.pendingAnnul := by
  unfold set; split <;> rfl

@[simp] theorem set_branchTarget : (c.set r v).branchTarget = c.branchTarget := by
  unfold set; split <;> rfl

@[simp] theorem size_set : (c.set r v).regs.size = c.regs.size := by
  unfold set; split
  · rfl
  · exact Array.size_setIfInBounds

/-- A write to a register that is not fixed is a write to the file. -/
theorem regs_set {r : Reg} (hr : r ≠ 0) :
    (c.set r v).regs = c.regs.setIfInBounds (c.index r) v := by
  unfold set
  rw [if_neg hr]

end Frame

theorem Shaped.set (h : c.Shaped) (r : Reg) (v : Word) : (c.set r v).Shaped :=
  h.congr (by simp) (by simp) (by simpa using h.cwp_lt)

/-! ### Reading through a window -/

/-- Where a register lies is its place in the current window. -/
theorem index_eq (h : c.Shaped) (r : Reg) : c.index r = place c.windows c.cwp r := by
  have := r.isLt
  have := h.cwp_lt
  have := h.two_le
  unfold index place
  rw [h.size]
  split
  · rfl
  · simp only
    split
    · rfl
    · rw [Nat.mod_eq_sub_mod (by omega), Nat.mod_eq_of_lt (by omega)]
      omega

theorem get_eq_peek (h : c.Shaped) (r : Reg) : c.get r = c.peek c.cwp r := by
  unfold get peek; rw [index_eq h]

/-- **A write is seen where its place is seen.** -/
theorem peek_set (h : c.Shaped) {w : Nat} (hw : w < c.windows) (r r' : Reg) (v : Word) :
    (c.set r v).peek w r' =
      if r ≠ 0 ∧ place c.windows c.cwp r = place c.windows w r' then v else c.peek w r' := by
  by_cases hr : r = 0
  · subst hr; simp
  have hset : (c.set r v).regs = c.regs.setIfInBounds (place c.windows c.cwp r) v := by
    rw [regs_set c v hr, index_eq h]
  unfold peek
  rw [set_windows, hset]
  by_cases hr' : r' = 0
  · subst hr'
    have h0 : place c.windows w 0 = 0 := place_eq_zero.mpr rfl
    rw [if_pos rfl, if_pos rfl, h0, if_neg fun hc => hr (place_eq_zero.mp hc.2)]
  rw [if_neg hr', if_neg hr']
  have hlt : place c.windows w r' < c.regs.size := by rw [h.size]; exact place_lt hw r'
  simp only [Array.getD_eq_getD_getElem?, Array.getElem?_setIfInBounds, hr, ne_eq,
    not_false_eq_true, true_and]
  by_cases he : place c.windows c.cwp r = place c.windows w r'
  · rw [if_pos he, if_pos he, if_pos (he ▸ hlt), Option.getD_some]
  · rw [if_neg he, if_neg he]

theorem peek_set_of_ne (h : c.Shaped) {w : Nat} (hw : w < c.windows) {r r' : Reg} (v : Word)
    (hne : r = 0 ∨ place c.windows c.cwp r ≠ place c.windows w r') :
    (c.set r v).peek w r' = c.peek w r' := by
  rw [peek_set h hw, if_neg]
  rintro ⟨h0, he⟩
  exact hne.elim h0 fun hne => hne he

/-- Within a window the registers are independent, and register 0 is fixed. -/
theorem get_set (h : c.Shaped) (r r' : Reg) (v : Word) :
    (c.set r v).get r' = if r ≠ 0 ∧ r = r' then v else c.get r' := by
  rw [get_eq_peek (h.set r v), set_cwp, peek_set h h.cwp_lt, get_eq_peek h]
  simp only [place_inj h.two_le]

/-- Two windows next to each other share the ins of the one and the outs of the
other. -/
theorem peek_above {w : Nat} {r r' : Reg} (hr : 24 ≤ r.val)
    (hr' : r'.val + 16 = r.val) : c.peek (above c.windows w) r' = c.peek w r := by
  unfold peek
  rw [place_above hr hr', if_neg, if_neg]
  · rintro rfl; simp at hr
  · rintro rfl; simp at hr'; omega

/-- A global is the same in every window. -/
theorem peek_global (w w' : Nat) {r : Reg} (hr : r.val < 8) : c.peek w r = c.peek w' r := by
  unfold peek place; rw [if_pos hr, if_pos hr]

theorem Shaped.clearZero (h : c.Shaped) : c.clearZero.Shaped :=
  h.congr rfl Array.size_setIfInBounds h.cwp_lt

/-- Register 0 of the file is not seen. -/
theorem peek_clearZero (w : Nat) (r : Reg) : c.clearZero.peek w r = c.peek w r := by
  unfold peek
  by_cases hr : r = 0
  · rw [if_pos hr, if_pos hr]
  · have hne : 0 ≠ place c.windows w r := fun h => hr (place_eq_zero.mp h.symm)
    rw [if_neg hr, if_neg hr]
    simp only [Cpu.clearZero, Array.getD_eq_getD_getElem?, Array.getElem?_setIfInBounds_ne hne]

/-! ### Resets -/

theorem Shaped.reset (h : c.Shaped) (pc : Word) : (c.reset pc).Shaped :=
  h.congr rfl Array.size_map h.pos

theorem getD_reset (c : Cpu) (pc : Word) (i : Nat) : (c.reset pc).regs.getD i 0 = 0 := by
  show (c.regs.map fun _ => (0 : Word)).getD i 0 = 0
  rw [Array.getD_eq_getD_getElem?, Array.getElem?_map]
  cases c.regs[i]? with
  | none => rfl
  | some v => rfl

theorem get_reset (c : Cpu) (pc : Word) (r : Reg) : (c.reset pc).get r = 0 := by
  unfold get
  split
  · rfl
  · exact getD_reset c pc _

/-! ### Moving to another window -/

theorem setCwp_cwp {w : Nat} (hw : w < 32) : (c.setCwp w).cwp = w := Nat.mod_eq_of_lt hw

theorem Shaped.setCwp (h : c.Shaped) {w : Nat} (hw : w < c.windows) : (c.setCwp w).Shaped :=
  h.congr rfl rfl (by rw [setCwp_cwp (Nat.lt_of_lt_of_le hw h.le)]; exact hw)

theorem get_setCwp (h : c.Shaped) {w : Nat} (hw : w < c.windows) (r : Reg) :
    (c.setCwp w).get r = c.peek w r := by
  rw [get_eq_peek (h.setCwp hw), setCwp_cwp (Nat.lt_of_lt_of_le hw h.le)]; rfl

/-- Which windows are next is a matter of the configuration and the window. -/
theorem neighbour_congr {c' : Cpu} (hconfig : c'.config = c.config) (hcwp : c'.cwp = c.cwp)
    (t : Turn) : c'.neighbour t = c.neighbour t := by
  unfold neighbour
  rw [hconfig, hcwp]

theorem neighbour_up (h : c.Shaped) : c.neighbour .up = above c.windows c.cwp := by
  show (c.cwp + c.windows + 1) % c.windows = above c.windows c.cwp
  rw [above_eq_mod h.cwp_lt, Nat.add_right_comm, Nat.add_mod_right]

theorem neighbour_down (h : c.Shaped) : c.neighbour .down = below c.windows c.cwp :=
  (below_eq_mod h.cwp_lt).symm

theorem neighbour_eq_next (h : c.Shaped) (t : Turn) : c.neighbour t = next c.windows t c.cwp := by
  cases t with
  | up => exact neighbour_up h
  | down => exact neighbour_down h

theorem neighbour_lt (h : c.Shaped) (t : Turn) : c.neighbour t < c.windows := by
  rw [neighbour_eq_next h]
  exact next_lt t h.cwp_lt

theorem rotate_cwp (h : c.Shaped) (t : Turn) : (c.rotate t).cwp = c.neighbour t :=
  setCwp_cwp (Nat.lt_of_lt_of_le (neighbour_lt h t) h.le)

theorem Shaped.rotate (h : c.Shaped) (t : Turn) : (c.rotate t).Shaped :=
  h.setCwp (neighbour_lt h t)

end Cpu
end SparcIU
