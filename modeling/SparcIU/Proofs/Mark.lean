/-
# The invalid mark

The invalid mask as a set of windows: `Cpu.isInvalid` says which it holds, and
the operations on the mask are what they do to that set. A write keeps the
windows that exist (`Cpu.isInvalid_mask`); a spill moves every mark one window
down, and a mark comes up at the top if none is left (`Cpu.isInvalid_markDown`);
a fill moves them up, and one comes up at the bottom (`Cpu.isInvalid_markUp`).
A single mark goes around the ring (`Cpu.moveMark_single`), and of many marks
none comes back to a window before all have fallen off (`Cpu.moveMark_progress`),
so a turn around the ring clears any window (`Cpu.clearsIn_windows`).

Key definitions: `Cpu.Marked`, `Cpu.moveMark`, `Cpu.ahead`, `Cpu.ClearsIn`,
`Cpu.lowered`, `Cpu.raised`.
Key theorems: `Cpu.isInvalid_mask`, `Cpu.isInvalid_markDown`,
`Cpu.isInvalid_markUp`, `Cpu.moveMark_single`, `Cpu.moveMark_progress`,
`Cpu.clearsIn_windows`, `Cpu.toNat_markDown`, `Cpu.toNat_markUp`.
-/
import SparcIU.Proofs.Words
import SparcIU.Proofs.Ring
import SparcIU.Execution.Delivery

namespace SparcIU
namespace Cpu

open Window

variable {c : Cpu}

theorem isInvalid_eq_testBit (c : Cpu) (w : Nat) : c.isInvalid w = c.wim.toNat.testBit w := by
  unfold isInvalid
  by_cases hw : w < 32
  · have hmod : w % 2 ^ 32 % 32 = w := by omega
    rw [decide_eq_true hw, Bool.true_and, Bool.eq_iff_iff, beq_iff_eq, ← UInt32.toNat_inj,
      UInt32.toNat_mod, UInt32.toNat_shiftRight, UInt32.toNat_ofNat', hmod,
      Nat.testBit_eq_decide_div_mod_eq, decide_eq_true_iff, Nat.shiftRight_eq_div_pow]
    exact Iff.rfl
  · rw [decide_eq_false hw, Bool.false_and, Word.testBit_of_ge _ (by omega)]

theorem isInvalid_congr {c' : Cpu} (hwim : c'.wim = c.wim) (w : Nat) :
    c'.isInvalid w = c.isInvalid w := by
  unfold isInvalid
  rw [hwim]

/-- Saves and restores trap before a marked window. -/
theorem moveWindow_of_invalid {t : Turn} (hm : c.isInvalid (c.neighbour t)) (rs1 : Reg)
    (src : Operand) (rd : Reg) : c.moveWindow t rs1 src rd = c.raise (windowTrap t) := by
  unfold moveWindow
  simp only
  rw [if_pos hm]

theorem moveWindow_of_clear {t : Turn} (hm : ¬ c.isInvalid (c.neighbour t)) (rs1 : Reg)
    (src : Operand) (rd : Reg) : c.moveWindow t rs1 src rd =
      (c.setCwp (c.neighbour t)).set rd (c.sum rs1 src) := by
  unfold moveWindow
  simp only
  rw [if_neg hm]

/-- The mask of `n` windows holds the numbers below `n`. -/
theorem testBit_windowMask (n : UInt8) {w : Nat} (hw : w < 32) :
    (windowMask n).toNat.testBit w = decide (w < n.toNat) := by
  unfold windowMask
  split
  · rename_i hn
    have h32 : 32 ≤ n.toNat := UInt8.le_iff_toNat_le.mp hn
    rw [show (0xffffffff : Word).toNat = 2 ^ 32 - 1 from rfl, Nat.testBit_two_pow_sub_one,
      decide_eq_true hw, decide_eq_true (by omega)]
  · rename_i hn
    have h32 : n.toNat < 32 := Nat.lt_of_not_le fun h => hn (UInt8.le_iff_toNat_le.mpr h)
    have hone := (Word.toNat_one_shiftLeft h32).trans (Nat.one_shiftLeft _)
    rw [Word.toUInt32_eq_ofNat, UInt32.toNat_sub_of_le, hone, show (1 : Word).toNat = 1 from rfl,
      Nat.testBit_two_pow_sub_one]
    rw [UInt32.le_iff_toNat_le, hone]
    exact Nat.one_le_two_pow

theorem testBit_and_windowMask (v : Word) (n : UInt8) (w : Nat) :
    (v &&& windowMask n).toNat.testBit w = (v.toNat.testBit w && decide (w < n.toNat)) := by
  rw [UInt32.toNat_and, Nat.testBit_and]
  by_cases hw : w < 32
  · rw [testBit_windowMask n hw]
  · rw [Word.testBit_of_ge v (by omega), Bool.false_and, Bool.false_and]

/-- A masked word has marks for existing windows only. -/
theorem isInvalid_mask {v : Word} (hv : c.wim = v &&& windowMask c.config.windows) {w : Nat}
    (hw : c.windows ≤ w) : c.isInvalid w = false := by
  rw [isInvalid_eq_testBit, hv, testBit_and_windowMask, decide_eq_false (Nat.not_lt.mpr hw),
    Bool.and_false]

/-! ### The mark moves down -/

theorem testBit_mask_shiftRight (c : Cpu) (w : Nat) :
    ((c.wim &&& windowMask c.config.windows) >>> 1).toNat.testBit w =
      (decide (w + 1 < c.windows) && c.isInvalid (w + 1)) := by
  rw [UInt32.toNat_shiftRight, Nat.testBit_shiftRight, show (1 : Word).toNat % 32 = 1 from rfl,
    testBit_and_windowMask, ← isInvalid_eq_testBit, Nat.add_comm, Bool.and_comm]

/-- The marks of existing windows move down, and the lowest one falls off. -/
theorem isInvalid_markDown {v : Nat} (hv : v + 1 < c.windows) (hm : c.isInvalid (v + 1))
    (w : Nat) : ({ c with wim := c.markDown } : Cpu).isInvalid w =
      (decide (w + 1 < c.windows) && c.isInvalid (w + 1)) := by
  have hne : (c.wim &&& windowMask c.config.windows) >>> 1 ≠ 0 := by
    rw [Ne, Word.eq_zero_iff]
    intro h
    have := h v
    rw [testBit_mask_shiftRight, hm, decide_eq_true hv] at this
    cases this
  rw [isInvalid_eq_testBit, ← testBit_mask_shiftRight]
  show c.markDown.toNat.testBit w = _
  unfold markDown
  rw [if_neg hne]

/-- The bit of the top window. -/
theorem top_eq (h : c.Shaped) : c.config.windows.toUInt32 - 1 = UInt32.ofNat (c.windows - 1) := by
  have hle := h.le
  have h1 : (1 : Word).toNat = 1 := rfl
  have hn : (UInt32.ofNat c.windows).toNat = c.windows := by
    rw [UInt32.toNat_ofNat', Nat.mod_eq_of_lt (by omega)]
  rw [Word.toUInt32_eq_ofNat, ← UInt32.toNat_inj, UInt32.toNat_sub_of_le, hn, h1,
    UInt32.toNat_ofNat', Nat.mod_eq_of_lt (by omega)]
  rw [UInt32.le_iff_toNat_le, hn]
  exact h.pos

/-- If no mark is left, the top window is marked. -/
theorem isInvalid_markDown_none (h : c.Shaped)
    (hnone : ∀ v, v + 1 < c.windows → c.isInvalid (v + 1) = false) (w : Nat) :
    ({ c with wim := c.markDown } : Cpu).isInvalid w = decide (w + 1 = c.windows) := by
  have hle := h.le
  have hpos := h.pos
  have hz : (c.wim &&& windowMask c.config.windows) >>> 1 = 0 := by
    rw [Word.eq_zero_iff]
    intro v
    rw [testBit_mask_shiftRight]
    by_cases hv : v + 1 < c.windows
    · rw [hnone v hv, Bool.and_false]
    · rw [decide_eq_false hv, Bool.false_and]
  rw [isInvalid_eq_testBit]
  show c.markDown.toNat.testBit w = _
  unfold markDown
  rw [if_pos hz, top_eq h, Word.testBit_one_shiftLeft (by omega)]
  exact decide_eq_decide.mpr (by omega)

/-! ### The mark moves up -/

theorem testBit_mask_shiftLeft (h : c.Shaped) (w : Nat) :
    (((c.wim &&& windowMask c.config.windows) <<< 1)
      &&& windowMask c.config.windows).toNat.testBit w =
      (decide (0 < w ∧ w < c.windows) && c.isInvalid (w - 1)) := by
  have hle := h.le
  rw [testBit_and_windowMask, UInt32.toNat_shiftLeft, show (1 : Word).toNat % 32 = 1 from rfl,
    Nat.testBit_mod_two_pow, Nat.testBit_shiftLeft, testBit_and_windowMask, ← isInvalid_eq_testBit]
  by_cases h0 : 0 < w
  · by_cases hw : w < c.windows
    · have h1 : w - 1 < c.windows := Nat.lt_of_le_of_lt (Nat.sub_le _ _) hw
      simp [h0, hw, h1, show 1 ≤ w from h0, show w < 32 by omega]
    · simp [hw]
  · simp [show ¬ 1 ≤ w from h0, h0]

/-- The marks of existing windows move up, and the highest one falls off. -/
theorem isInvalid_markUp (h : c.Shaped) {v : Nat} (hv : v + 1 < c.windows) (hm : c.isInvalid v)
    (w : Nat) : ({ c with wim := c.markUp } : Cpu).isInvalid w =
      (decide (0 < w ∧ w < c.windows) && c.isInvalid (w - 1)) := by
  have hne : ((c.wim &&& windowMask c.config.windows) <<< 1) &&& windowMask c.config.windows ≠ 0 := by
    rw [Ne, Word.eq_zero_iff]
    intro hz
    have := hz (v + 1)
    rw [testBit_mask_shiftLeft h, Nat.add_sub_cancel, hm,
      decide_eq_true ⟨Nat.succ_pos v, hv⟩] at this
    cases this
  rw [isInvalid_eq_testBit, ← testBit_mask_shiftLeft h]
  show c.markUp.toNat.testBit w = _
  unfold markUp
  simp only [if_neg hne]

/-- If no mark is left, window 0 is marked. -/
theorem isInvalid_markUp_none (h : c.Shaped)
    (hnone : ∀ v, v + 1 < c.windows → c.isInvalid v = false) (w : Nat) :
    ({ c with wim := c.markUp } : Cpu).isInvalid w = decide (w = 0) := by
  have hz : ((c.wim &&& windowMask c.config.windows) <<< 1) &&& windowMask c.config.windows = 0 := by
    rw [Word.eq_zero_iff]
    intro v
    rw [testBit_mask_shiftLeft h]
    by_cases hv : 0 < v ∧ v < c.windows
    · rw [hnone (v - 1) (by omega), Bool.and_false]
    · rw [decide_eq_false hv, Bool.false_and]
  rw [isInvalid_eq_testBit]
  show c.markUp.toNat.testBit w = _
  unfold markUp
  simp only [if_pos hz]
  exact Word.testBit_one_shiftLeft (k := 0) (by decide) w

/-! ### No mark leaves the ring -/

theorem isInvalid_markDown_of_le (h : c.Shaped) {w : Nat} (hw : c.windows ≤ w) :
    ({ c with wim := c.markDown } : Cpu).isInvalid w = false := by
  by_cases hm : ∃ v, v + 1 < c.windows ∧ c.isInvalid (v + 1)
  · obtain ⟨v, hv, hm⟩ := hm
    rw [isInvalid_markDown hv hm, decide_eq_false (by omega), Bool.false_and]
  · have hnone : ∀ v, v + 1 < c.windows → c.isInvalid (v + 1) = false := fun v hv =>
      Bool.eq_false_iff.mpr fun h => hm ⟨v, hv, h⟩
    rw [isInvalid_markDown_none h hnone, decide_eq_false (by omega)]

theorem isInvalid_markUp_of_le (h : c.Shaped) {w : Nat} (hw : c.windows ≤ w) :
    ({ c with wim := c.markUp } : Cpu).isInvalid w = false := by
  by_cases hm : ∃ v, v + 1 < c.windows ∧ c.isInvalid v
  · obtain ⟨v, hv, hm⟩ := hm
    rw [isInvalid_markUp h hv hm, decide_eq_false (by omega), Bool.false_and]
  · have hnone : ∀ v, v + 1 < c.windows → c.isInvalid v = false := fun v hv =>
      Bool.eq_false_iff.mpr fun h => hm ⟨v, hv, h⟩
    have hpos := h.pos
    rw [isInvalid_markUp_none h hnone, decide_eq_false (by omega)]

/-- The mark after the service of a trap on the way of a turn. -/
def moveMark (c : Cpu) : Turn → Word
  | .up => c.markUp
  | .down => c.markDown

theorem moveMark_congr {c' : Cpu} (hconfig : c'.config = c.config) (hwim : c'.wim = c.wim)
    (t : Turn) : c'.moveMark t = c.moveMark t := by
  cases t with
  | up => simp only [moveMark, markUp, hconfig, hwim]
  | down => simp only [moveMark, markDown, hconfig, hwim]

theorem isInvalid_moveMark_of_le (h : c.Shaped) (t : Turn) {w : Nat} (hw : c.windows ≤ w) :
    ({ c with wim := c.moveMark t } : Cpu).isInvalid w = false := by
  cases t with
  | up => exact isInvalid_markUp_of_le h hw
  | down => exact isInvalid_markDown_of_le h hw

/-! ### A single mark -/

/-- Exactly window `p` is marked. -/
def Marked (c : Cpu) (p : Nat) : Prop := p < c.windows ∧ ∀ w, c.isInvalid w = decide (w = p)

theorem Marked.isInvalid_iff {p : Nat} (h : c.Marked p) (w : Nat) : c.isInvalid w ↔ w = p := by
  rw [h.2 w, decide_eq_true_iff]

theorem Marked.congr {c' : Cpu} {p : Nat} (h : c.Marked p) (hconfig : c'.config = c.config)
    (hwim : c'.wim = c.wim) : c'.Marked p := by
  refine ⟨by rw [windows, hconfig]; exact h.1, fun w => ?_⟩
  rw [← h.2 w, isInvalid_congr hwim]

/-- After a reset window 1 is marked. -/
theorem marked_of_wim_two (hw : 2 ≤ c.windows) (h : c.wim = 2) : c.Marked 1 := by
  refine ⟨hw, fun w => ?_⟩
  rw [isInvalid_eq_testBit, h]
  exact Word.testBit_one_shiftLeft (k := 1) (by decide) w

/-- A single mark moves around the ring. -/
theorem markDown_single (h : c.Shaped) {p : Nat} (hp : c.Marked p) :
    ({ c with wim := c.markDown } : Cpu).Marked (below c.windows p) := by
  refine ⟨below_lt hp.1, fun w => ?_⟩
  have hlt := hp.1
  unfold below
  by_cases h0 : p = 0
  · rw [isInvalid_markDown_none h, if_pos h0]
    · exact decide_eq_decide.mpr (by omega)
    · intro v _
      rw [hp.2, decide_eq_false (by omega)]
  · rw [isInvalid_markDown (v := p - 1) (by omega) ((hp.isInvalid_iff _).mpr (by omega)), hp.2,
      if_neg h0, ← Bool.decide_and]
    exact decide_eq_decide.mpr (by omega)

theorem markUp_single (h : c.Shaped) {p : Nat} (hp : c.Marked p) :
    ({ c with wim := c.markUp } : Cpu).Marked (above c.windows p) := by
  refine ⟨above_lt hp.1, fun w => ?_⟩
  have hlt := hp.1
  unfold above
  by_cases h0 : p + 1 = c.windows
  · rw [isInvalid_markUp_none h, if_pos h0]
    intro v hv
    rw [hp.2, decide_eq_false (by omega)]
  · rw [isInvalid_markUp h (v := p) (by omega) ((hp.isInvalid_iff _).mpr rfl), hp.2, if_neg h0,
      ← Bool.decide_and]
    exact decide_eq_decide.mpr (by omega)

theorem moveMark_single (h : c.Shaped) {p : Nat} (hp : c.Marked p) (t : Turn) :
    ({ c with wim := c.moveMark t } : Cpu).Marked (next c.windows t p) := by
  cases t with
  | up => exact markUp_single h hp
  | down => exact markDown_single h hp

/-! ### Many marks

They move together, and those that reach the end of the ring fall off. Only when none is
left a new one comes up, at the other end. So a window that the marks have gone past stays
clear of them (`moveMark_progress`). -/

/-- The windows in front of a window on the way of a turn, up to the end of the ring. -/
def ahead (n : Nat) : Turn → Nat → Nat
  | .up, w => n - 1 - w
  | .down, w => w

theorem ahead_lt {n w : Nat} (t : Turn) (hw : w < n) : ahead n t w < n := by
  cases t with
  | up =>
    show n - 1 - w < n
    omega
  | down => exact hw

/-- The marks of existing windows move on, and the one at the end falls off. -/
theorem isInvalid_moveMark (h : c.Shaped) (t : Turn) {v : Nat} (hv : v < c.windows)
    (hahead : 0 < ahead c.windows t v) (hm : c.isInvalid v) (w : Nat) :
    ({ c with wim := c.moveMark t } : Cpu).isInvalid w ↔ w < c.windows ∧
      ∃ v < c.windows, ahead c.windows t v = ahead c.windows t w + 1 ∧ c.isInvalid v := by
  cases t with
  | up =>
    simp only [ahead] at hahead ⊢
    show ({ c with wim := c.markUp } : Cpu).isInvalid w = true ↔ _
    rw [isInvalid_markUp h (v := v) (by omega) hm, Bool.and_eq_true, decide_eq_true_iff]
    constructor
    · rintro ⟨⟨h0, hw⟩, hm⟩
      exact ⟨hw, w - 1, by omega, by omega, hm⟩
    · rintro ⟨hw, v, hv, he, hm⟩
      obtain rfl : v = w - 1 := by omega
      exact ⟨⟨by omega, hw⟩, hm⟩
  | down =>
    simp only [ahead] at hahead ⊢
    obtain ⟨u, rfl⟩ : ∃ u, v = u + 1 := ⟨v - 1, by omega⟩
    show ({ c with wim := c.markDown } : Cpu).isInvalid w = true ↔ _
    rw [isInvalid_markDown hv hm, Bool.and_eq_true, decide_eq_true_iff]
    constructor
    · rintro ⟨hw, hm⟩
      exact ⟨by omega, w + 1, hw, rfl, hm⟩
    · rintro ⟨-, v, hv, rfl, hm⟩
      exact ⟨hv, hm⟩

/-- If no mark is left, the window at the other end is marked. -/
theorem isInvalid_moveMark_none (h : c.Shaped) (t : Turn)
    (hnone : ∀ v < c.windows, 0 < ahead c.windows t v → ¬ c.isInvalid v) {w : Nat} :
    ({ c with wim := c.moveMark t } : Cpu).isInvalid w ↔
      w < c.windows ∧ ahead c.windows t w + 1 = c.windows := by
  cases t with
  | up =>
    simp only [ahead] at hnone ⊢
    have hpos := h.pos
    show ({ c with wim := c.markUp } : Cpu).isInvalid w = true ↔ _
    rw [isInvalid_markUp_none h, decide_eq_true_iff]
    · omega
    · intro v hv
      exact Bool.eq_false_iff.mpr (hnone v (by omega) (by omega))
  | down =>
    simp only [ahead] at hnone ⊢
    show ({ c with wim := c.markDown } : Cpu).isInvalid w = true ↔ _
    rw [isInvalid_markDown_none h, decide_eq_true_iff]
    · omega
    · intro v hv
      exact Bool.eq_false_iff.mpr (hnone (v + 1) hv (Nat.succ_pos v))

/-- No marked window has `b` windows or more ahead. -/
def MarksWithin (c : Cpu) (t : Turn) (b : Nat) : Prop :=
  ∀ w < c.windows, c.isInvalid w → ahead c.windows t w < b

theorem marksWithin_windows (c : Cpu) (t : Turn) : c.MarksWithin t c.windows :=
  fun _ hw _ => ahead_lt t hw

/-- **A mark does not come back at once.** When the marks move off a marked window, it is
clear, or all of them have come nearer to the end. -/
theorem moveMark_progress (h : c.Shaped) (t : Turn) {p b : Nat} (hp : p < c.windows)
    (hm : c.isInvalid p) (hb : c.MarksWithin t (b + 1)) :
    ¬ ({ c with wim := c.moveMark t } : Cpu).isInvalid p ∨
      ({ c with wim := c.moveMark t } : Cpu).MarksWithin t b := by
  by_cases hmark : ∃ v < c.windows, 0 < ahead c.windows t v ∧ c.isInvalid v
  · obtain ⟨v, hv, hahead, hmv⟩ := hmark
    right
    intro w _ hmw
    obtain ⟨-, u, hu, hnext, hmu⟩ := (isInvalid_moveMark h t hv hahead hmv w).mp hmw
    have hlt := hb u hu hmu
    show ahead c.windows t w < b
    omega
  · left
    have hnone : ∀ v < c.windows, 0 < ahead c.windows t v → ¬ c.isInvalid v :=
      fun v hv hahead hmv => hmark ⟨v, hv, hahead, hmv⟩
    -- the marked window is the last one, and the new mark comes up at the first
    have hlast : ahead c.windows t p = 0 :=
      Nat.eq_zero_of_not_pos fun hahead => hnone p hp hahead hm
    have htwo := h.two_le
    rw [isInvalid_moveMark_none h t hnone, hlast]
    omega

/-- After `n` services at most the next window on the way of a turn is clear. -/
def ClearsIn (t : Turn) : Nat → Cpu → Prop
  | 0, c => ¬ c.isInvalid (c.neighbour t)
  | n + 1, c => ¬ c.isInvalid (c.neighbour t) ∨ ClearsIn t n { c with wim := c.moveMark t }

theorem ClearsIn.congr {c' : Cpu} {t : Turn} {n : Nat} (h : ClearsIn t n c)
    (hconfig : c'.config = c.config) (hcwp : c'.cwp = c.cwp) (hwim : c'.wim = c.wim) :
    ClearsIn t n c' := by
  induction n generalizing c c' with
  | zero =>
    unfold ClearsIn at h ⊢
    rwa [neighbour_congr hconfig hcwp, isInvalid_congr hwim]
  | succ n ih =>
    unfold ClearsIn at h ⊢
    rw [neighbour_congr hconfig hcwp, isInvalid_congr hwim]
    refine h.imp_right fun hrest => ih (c := { c with wim := c.moveMark t }) hrest hconfig hcwp ?_
    exact moveMark_congr hconfig hwim t

/-- As many services as there are windows ahead clear the next one. -/
theorem MarksWithin.clearsIn (h : c.Shaped) {t : Turn} {n : Nat} (hn : c.MarksWithin t n) :
    ClearsIn t n c := by
  have hlt := neighbour_lt h t
  induction n generalizing c with
  | zero => exact fun hm => absurd (hn _ hlt hm) (Nat.not_lt_zero _)
  | succ n ih =>
    by_cases hm : c.isInvalid (c.neighbour t)
    · have hmoved : Shaped { c with wim := c.moveMark t } := h.congr rfl rfl h.cwp_lt
      right
      rcases moveMark_progress h t hlt hm hn with hclear | hwithin
      · cases n with
        | zero => exact hclear
        | succ n => exact .inl hclear
      · exact ih hmoved hwithin hlt
    · exact .inl hm

/-- However many windows are marked, a turn around the ring clears the next one. -/
theorem clearsIn_windows (h : c.Shaped) (t : Turn) : ClearsIn t c.windows c :=
  (marksWithin_windows c t).clearsIn h

/-- A single mark is out of the way after one service. -/
theorem Marked.clearsIn (h : c.Shaped) {p : Nat} (hp : c.Marked p) (t : Turn) :
    ClearsIn t 1 c := by
  by_cases hm : c.isInvalid (c.neighbour t)
  · right
    have hnext : c.neighbour t = p := (hp.isInvalid_iff _).mp hm
    have hmoved := (moveMark_single h hp t).isInvalid_iff p
    show ¬ ({ c with wim := c.moveMark t } : Cpu).isInvalid (c.neighbour t)
    rw [hnext, hmoved]
    exact (next_ne t h.two_le).symm
  · exact .inl hm

/-! ### The mask as a number -/

theorem toNat_and_windowMask (v : Word) (n : UInt8) :
    (v &&& windowMask n).toNat = v.toNat % 2 ^ n.toNat := by
  refine Nat.eq_of_testBit_eq fun w => ?_
  rw [testBit_and_windowMask, Nat.testBit_mod_two_pow, Bool.and_comm]

/-- The mask of `n` windows one window down. -/
def lowered (n wim : Nat) : Nat := if wim % 2 ^ n / 2 = 0 then 2 ^ (n - 1) else wim % 2 ^ n / 2

/-- The mask of `n` windows one window up. -/
def raised (n wim : Nat) : Nat :=
  if wim % 2 ^ n * 2 % 2 ^ n = 0 then 1 else wim % 2 ^ n * 2 % 2 ^ n

theorem toNat_markDown (h : c.Shaped) : c.markDown.toNat = lowered c.windows c.wim.toNat := by
  have hpos := h.pos
  have hle := h.le
  have hshift : ((c.wim &&& windowMask c.config.windows) >>> 1).toNat =
      c.wim.toNat % 2 ^ c.windows / 2 := by
    rw [UInt32.toNat_shiftRight, toNat_and_windowMask]
    exact Nat.shiftRight_one _
  unfold markDown lowered
  simp only [← hshift, Word.toNat_eq_zero_iff]
  by_cases h0 : (c.wim &&& windowMask c.config.windows) >>> 1 = 0
  · rw [if_pos h0, if_pos h0, top_eq h, Word.toNat_one_shiftLeft (by omega), Nat.one_shiftLeft]
  · rw [if_neg h0, if_neg h0]

theorem toNat_markUp (h : c.Shaped) : c.markUp.toNat = raised c.windows c.wim.toNat := by
  have hle := h.le
  have hdvd : 2 ^ c.windows ∣ 2 ^ 32 := Nat.pow_dvd_pow 2 hle
  have hshift : (((c.wim &&& windowMask c.config.windows) <<< 1)
      &&& windowMask c.config.windows).toNat = c.wim.toNat % 2 ^ c.windows * 2 % 2 ^ c.windows := by
    rw [toNat_and_windowMask, UInt32.toNat_shiftLeft, toNat_and_windowMask,
      show (1 : Word).toNat % 32 = 1 from rfl, Nat.shiftLeft_eq, Nat.mod_mod_of_dvd _ hdvd]
  unfold markUp raised
  simp only [← hshift, Word.toNat_eq_zero_iff]
  by_cases h0 : ((c.wim &&& windowMask c.config.windows) <<< 1) &&& windowMask c.config.windows = 0
  · rw [if_pos h0, if_pos h0]
    rfl
  · rw [if_neg h0, if_neg h0]

/-- A service leaves a mark. -/
theorem moveMark_ne_zero (h : c.Shaped) (t : Turn) : c.moveMark t ≠ 0 := by
  have hpow := Nat.two_pow_pos (c.windows - 1)
  rw [Ne, ← UInt32.toNat_inj]
  cases t with
  | up =>
    show c.markUp.toNat ≠ 0
    rw [toNat_markUp h]
    unfold raised
    split_ifs <;> omega
  | down =>
    show c.markDown.toNat ≠ 0
    rw [toNat_markDown h]
    unfold lowered
    split_ifs <;> omega

end Cpu
end SparcIU
