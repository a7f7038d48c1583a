/-
# Names and cells

A register is named by a window and a number, and what it names is a cell of the file.
Two different names of one cell are the same global seen from two windows, or an in of a
window and the out of the next higher one (`Window.SameCell`); no other two names meet
(`Window.place_eq_iff`), however few windows there are. The outs and locals of all windows
fill the file behind the globals without a gap, each cell once (`Window.existsUnique_home`),
so the row of windows closes to a ring.

Key definitions: `Window.Handed`, `Window.SameCell`.
Key theorems: `Window.place_eq_iff`, `Window.existsUnique_home`, `Cpu.get_set_setCwp`,
`register_ring`.
-/
import Mathlib.Logic.ExistsUnique
import SparcIU.Proofs.Precision

namespace SparcIU
namespace Window

variable {n w w' : Nat} {r r' : Reg}

/-- `r` is an in of window `w`, and `r'` the out of the next higher window with the same
number: what a caller passes in its outs, its callee has in its ins. -/
def Handed (n w : Nat) (r : Reg) (w' : Nat) (r' : Reg) : Prop :=
  ∃ k < 8, r.val = 24 + k ∧ r'.val = 8 + k ∧ w' = (w + 1) % n

instance : Decidable (Handed n w r w' r') :=
  inferInstanceAs (Decidable (∃ k < 8, r.val = 24 + k ∧ r'.val = 8 + k ∧ w' = (w + 1) % n))

/-- The two names mean one cell: a global, a name twice, or a register that one window
hands to the other. -/
def SameCell (n w : Nat) (r : Reg) (w' : Nat) (r' : Reg) : Prop :=
  (r = r' ∧ r.val < 8) ∨ (w = w' ∧ r = r') ∨ Handed n w r w' r' ∨ Handed n w' r' w r

instance : Decidable (SameCell n w r w' r') :=
  inferInstanceAs (Decidable ((r = r' ∧ r.val < 8) ∨ (w = w' ∧ r = r') ∨ _ ∨ _))

theorem handed_iff (hw : w < n) : Handed n w r w' r' ↔
    24 ≤ r.val ∧ r'.val + 16 = r.val ∧ w' = above n w := by
  have hlt := r.isLt
  rw [above_eq_mod hw]
  constructor
  · rintro ⟨k, hk, hr, hr', h⟩
    exact ⟨by omega, by omega, h⟩
  · rintro ⟨hr, hr', h⟩
    exact ⟨r'.val - 8, by omega, by omega, by omega, h⟩

/-- **Where names meet.** Two names lie at one place exactly if they mean one cell. -/
theorem place_eq_iff (hw : w < n) (hw' : w' < n) :
    place n w r = place n w' r' ↔ SameCell n w r w' r' := by
  have hlt := r.isLt
  have hlt' := r'.isLt
  unfold SameCell
  rw [handed_iff hw, handed_iff hw', Fin.ext_iff]
  unfold place above
  split_ifs <;> omega

/-- A windowed name reaches no global. -/
theorem le_place (h8 : 8 ≤ r.val) : 8 ≤ place n w r := by
  unfold place
  split_ifs <;> omega

/-- **Every cell has one home.** A cell behind the globals is an out or a local of exactly
one window. -/
theorem existsUnique_home {i : Nat} (h8 : 8 ≤ i) (hi : i < 8 + 16 * n) :
    ∃! x : Nat × Reg, (x.1 < n ∧ 8 ≤ x.2.val ∧ x.2.val < 24) ∧ place n x.1 x.2 = i := by
  have hnumber : 8 + (i - 8) % 16 < 32 := by omega
  have hwindow : (i - 8) / 16 < n := by omega
  refine ⟨((i - 8) / 16, ⟨8 + (i - 8) % 16, hnumber⟩), ⟨⟨hwindow, ?_, ?_⟩, ?_⟩, ?_⟩
  · simp
  · simp only
    omega
  · rw [place_of_lt hwindow]
    all_goals
      simp only
      omega
  · rintro x ⟨⟨hw, h8, h24⟩, hplace⟩
    rw [place_of_lt hw h8 h24] at hplace
    have hwin : x.1 = (i - 8) / 16 := by omega
    have hreg : x.2.val = 8 + (i - 8) % 16 := by omega
    exact Prod.ext hwin (Fin.ext hreg)

end Window

namespace Cpu

open Window

variable {c : Cpu}

/-- A valid configuration and a file with a place for every register make a processor in
shape, whichever window is current. -/
theorem shaped_setCwp (hconfig : c.config.validate = .ok ())
    (hsize : c.regs.size = c.config.registerCount) {w : Nat} (hw : w < c.windows) :
    (c.setCwp w).Shaped := by
  unfold Configuration.validate at hconfig
  split at hconfig
  · rename_i hcount
    have hle : c.windows ≤ 32 := UInt8.le_iff_toNat_le.mp hcount.2
    refine ⟨UInt8.le_iff_toNat_le.mp hcount.1, hle, hsize, ?_⟩
    rw [setCwp_cwp (by omega)]
    exact hw
  · cases hconfig

/-- **Write in one window, read in another.** -/
theorem get_set_setCwp {w w' : Nat} (h : (c.setCwp w).Shaped) (hw : w < c.windows)
    (hw' : w' < c.windows) (r r' : Reg) (v : Word) :
    (((c.setCwp w).set r v).setCwp w').get r' =
      if r ≠ 0 ∧ SameCell c.windows w r w' r' then v else (c.setCwp w').get r' := by
  have hcwp : (c.setCwp w).cwp = w := setCwp_cwp (Nat.lt_of_lt_of_le hw h.le)
  have hbefore : (c.setCwp w').get r' = (c.setCwp w).peek w' r' := get_setCwp h hw' r'
  have hwritten : w' < ((c.setCwp w).set r v).windows := by
    rw [set_windows]
    exact hw'
  have hplace : place c.windows w r = place c.windows w' r' ↔ SameCell c.windows w r w' r' :=
    place_eq_iff hw hw'
  rw [get_setCwp (h.set r v) hwritten, peek_set h hw', hcwp, hbefore]
  show (if r ≠ 0 ∧ place c.windows w r = place c.windows w' r' then v else _) = _
  simp only [hplace]

end Cpu

/-- **The register file is a ring of overlapping windows.** Let the configuration be valid
and the file have a place for every register; the registers may hold anything. What is
written to a register in one window is read from a register in another one exactly if the
two names mean one cell and this is not that of register 0; else that register is what it
was, and register 0 is zero. Two names have one index exactly if they mean one cell. Every
cell behind the globals is an out or a local of exactly one window, and no windowed name
reaches the globals or goes past the file. -/
theorem register_ring {c : Cpu} (hconfig : c.config.validate = .ok ())
    (hsize : c.regs.size = c.config.registerCount) :
    (∀ w < c.windows, ∀ w' < c.windows, ∀ (n m : UInt8) (v : Word),
      (((c.setCwp w).set (Reg.ofNat n.toNat) v).setCwp w').get (Reg.ofNat m.toNat) =
        if Reg.ofNat n.toNat ≠ 0 ∧
          Window.SameCell c.windows w (Reg.ofNat n.toNat) w' (Reg.ofNat m.toNat)
        then v else (c.setCwp w').get (Reg.ofNat m.toNat)) ∧
    (∀ (w : Nat) (m : UInt8), m.toNat % 32 = 0 → (c.setCwp w).get (Reg.ofNat m.toNat) = 0) ∧
    (∀ w < c.windows, ∀ w' < c.windows, ∀ r r' : Reg,
      (c.setCwp w).index r = (c.setCwp w').index r' ↔ Window.SameCell c.windows w r w' r') ∧
    (∀ i, 8 ≤ i → i < c.regs.size → ∃! x : Nat × Reg,
      (x.1 < c.windows ∧ 8 ≤ x.2.val ∧ x.2.val < 24) ∧ (c.setCwp x.1).index x.2 = i) ∧
    ∀ w < c.windows, ∀ r : Reg, 8 ≤ r.val →
      8 ≤ (c.setCwp w).index r ∧ (c.setCwp w).index r < c.regs.size := by
  have hshaped : ∀ {w}, w < c.windows → (c.setCwp w).Shaped := Cpu.shaped_setCwp hconfig hsize
  have hindex : ∀ w < c.windows, ∀ r, (c.setCwp w).index r = Window.place c.windows w r := by
    intro w hw r
    have hcwp : (c.setCwp w).cwp = w := Cpu.setCwp_cwp (Nat.lt_of_lt_of_le hw (hshaped hw).le)
    rw [Cpu.index_eq (hshaped hw), hcwp]
    rfl
  refine ⟨fun w hw w' hw' n m v => ?_, fun w m hm => ?_, fun w hw w' hw' r r' => ?_,
    fun i h8 hi => ?_, fun w hw r h8 => ?_⟩
  · exact Cpu.get_set_setCwp (hshaped hw) hw hw' ..
  · have hzero : Reg.ofNat m.toNat = 0 := Fin.ext hm
    rw [hzero]
    rfl
  · rw [hindex w hw, hindex w' hw']
    exact Window.place_eq_iff hw hw'
  · have hi' : i < 8 + 16 * c.windows := Nat.lt_of_lt_of_eq hi hsize
    obtain ⟨x, ⟨hx, hplace⟩, hunique⟩ := Window.existsUnique_home h8 hi'
    refine ⟨x, ⟨hx, (hindex _ hx.1 _).trans hplace⟩, ?_⟩
    rintro y ⟨hy, hyi⟩
    exact hunique y ⟨hy, (hindex _ hy.1 _).symm.trans hyi⟩
  · rw [hindex w hw, hsize]
    exact ⟨Window.le_place h8, Window.place_lt hw r⟩

/-- With two windows, the ins of the second are the outs of the first: register 56 is
`%i0` by its low five bits. -/
theorem register_ring_two_windows :
    resetTwo.config.validate = .ok () ∧ resetTwo.regs.size = resetTwo.config.registerCount ∧
      (((resetTwo.setCwp 1).set (Reg.ofNat 56) 7).setCwp 0).get (Reg.ofNat 8) = 7 := by
  have hvalid : resetTwo.config.validate = .ok () := rfl
  have hsize : resetTwo.regs.size = resetTwo.config.registerCount := rfl
  obtain ⟨hread, -⟩ := register_ring hvalid hsize
  have hseven := hread 1 (by decide) 0 (by decide) 56 8 7
  rw [if_pos (by decide)] at hseven
  exact ⟨hvalid, hsize, hseven⟩

end SparcIU
