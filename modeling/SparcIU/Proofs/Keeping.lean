/-
# What every operation keeps

Whatever is done to a processor, it keeps its configuration and its shape,
register 0 of the file is zero, and a pending software trap has a number of
seven bits (`Cpu.Sound`). The invalid mask holds existing windows only and the
low bits of the trap base register are clear (`Cpu.Masked`). `Cpu.Keeps` is the
step: each operation is made of changes that keep these facts, and a fresh
processor has them (`Cpu.fresh_sound`, `Cpu.fresh_masked`). That no target
is queued holds only between two operations (`Cpu.always_step_idle`,
`Cpu.always_deliver_target`).

Key definitions: `Cpu.Sound`, `Cpu.Masked`, `Cpu.Keeps`.
Key theorems: `Cpu.keeps_operate`, `Cpu.keeps_execute`, `Cpu.keeps_step`,
`Cpu.keeps_deliver`, `Cpu.always_step_idle`, `Cpu.always_deliver_target`.
-/
import SparcIU.Proofs.Words
import SparcIU.Proofs.Precision
import SparcIU.Proofs.Mark
import SparcIU.Proofs.Service

namespace SparcIU

/-- A software trap has seven bits. -/
def TrapKind.Small (t : TrapKind) : Prop := ∀ n, t = .software n → n < 0x80

namespace Cpu

/-- The state is in order. -/
structure Sound (c : Cpu) : Prop extends Shaped c where
  zero : c.regs.getD 0 0 = 0
  small : ∀ t, c.pendingTrap = some t → t.Small

/-- The invalid mask and the trap base register have no stray bits. -/
structure Masked (c : Cpu) : Prop where
  wim : ∀ w, c.windows ≤ w → c.isInvalid w = false
  tbr : c.tbr % 16 = 0

/-- The change from `c` to `c'` keeps the configuration and both invariants. -/
structure Keeps (c c' : Cpu) : Prop where
  config : c'.config = c.config
  sound : c.Sound → c'.Sound
  masked : c.Sound → c.Masked → c'.Masked

variable {c c' c'' : Cpu}

theorem Keeps.refl (c : Cpu) : Keeps c c := ⟨rfl, id, fun _ => id⟩

theorem Keeps.trans (h : Keeps c c') (h' : Keeps c' c'') : Keeps c c'' :=
  ⟨h'.config.trans h.config, fun hs => h'.sound (h.sound hs),
    fun hs hm => h'.masked (h.sound hs) (h.masked hs hm)⟩

theorem Sound.congr (hs : c.Sound) (hconfig : c'.config = c.config) (hregs : c'.regs = c.regs)
    (hcwp : c'.cwp = c.cwp) (htrap : c'.pendingTrap = c.pendingTrap) : c'.Sound := by
  have hsize : c'.regs.size = c.regs.size := congrArg Array.size hregs
  have hshape : c'.Shaped := hs.toShaped.congr hconfig hsize (hcwp ▸ hs.cwp_lt)
  refine ⟨hshape, ?_, ?_⟩
  · rw [hregs]
    exact hs.zero
  · rw [htrap]
    exact hs.small

theorem Masked.congr (hm : c.Masked) (hconfig : c'.config = c.config) (hwim : c'.wim = c.wim)
    (htbr : c'.tbr = c.tbr) : c'.Masked := by
  constructor
  · intro w hw
    rw [windows, hconfig] at hw
    rw [isInvalid_eq_testBit, hwim, ← isInvalid_eq_testBit]
    exact hm.wim w hw
  · rw [htbr]
    exact hm.tbr

/-- A change of the invalid mask and the trap base register alone. -/
theorem Keeps.of_masked (hconfig : c'.config = c.config) (hregs : c'.regs = c.regs)
    (hcwp : c'.cwp = c.cwp) (htrap : c'.pendingTrap = c.pendingTrap) (hmasked : c.Masked → c'.Masked) :
    Keeps c c' :=
  ⟨hconfig, fun hs => hs.congr hconfig hregs hcwp htrap, fun _ => hmasked⟩

/-- A change that is invisible to the invariants. -/
theorem Keeps.of_eq (hconfig : c'.config = c.config) (hregs : c'.regs = c.regs)
    (hcwp : c'.cwp = c.cwp) (htrap : c'.pendingTrap = c.pendingTrap) (hwim : c'.wim = c.wim)
    (htbr : c'.tbr = c.tbr) : Keeps c c' :=
  .of_masked hconfig hregs hcwp htrap fun hm => hm.congr hconfig hwim htbr

/-! ### The changes operations are made of -/

/-- Only a write of register 0 meets its place, and that one changes nothing. -/
theorem zero_set (hs : c.Sound) (r : Reg) (v : Word) : (c.set r v).regs.getD 0 0 = 0 := by
  by_cases hr : r = 0
  · rw [hr]
    exact hs.zero
  · have hidx : c.index r ≠ 0 := by
      rw [index_eq hs.toShaped, Ne, Window.place_eq_zero]
      exact hr
    have hzero := hs.zero
    rw [Array.getD_eq_getD_getElem?] at hzero
    unfold set
    rw [if_neg hr]
    simp only [Array.getD_eq_getD_getElem?, Array.getElem?_setIfInBounds_ne hidx]
    exact hzero

theorem keeps_set (c : Cpu) (r : Reg) (v : Word) : Keeps c (c.set r v) := by
  refine ⟨set_config .., ?_, ?_⟩
  · intro hs
    refine ⟨hs.toShaped.set r v, zero_set hs r v, ?_⟩
    rw [set_pendingTrap]
    exact hs.small
  · intro _ hm
    exact hm.congr (set_config ..) (set_wim ..) (set_tbr ..)

theorem keeps_setTrap (c : Cpu) {p : Option TrapKind} (hp : ∀ t, p = some t → t.Small) :
    Keeps c { c with pendingTrap := p } := by
  refine ⟨rfl, ?_, ?_⟩
  · intro hs
    exact ⟨hs.toShaped.congr rfl rfl hs.cwp_lt, hs.zero, hp⟩
  · intro _ hm
    exact hm.congr rfl rfl rfl

theorem keeps_raise (c : Cpu) {t : TrapKind} (ht : t.Small) : Keeps c (c.raise t) := by
  refine keeps_setTrap c ?_
  rintro t' ⟨⟩
  exact ht

theorem keeps_setWim (c : Cpu) {v : Word}
    (hv : ∀ w, c.windows ≤ w → ({ c with wim := v } : Cpu).isInvalid w = false) :
    Keeps c { c with wim := v } :=
  .of_masked rfl rfl rfl rfl fun hm => ⟨hv, hm.tbr⟩

theorem keeps_setTbr (c : Cpu) {v : Word} (hv : c.tbr % 16 = 0 → v % 16 = 0) :
    Keeps c { c with tbr := v } :=
  .of_masked rfl rfl rfl rfl fun hm => ⟨hm.wim, hv hm.tbr⟩

theorem keeps_setIcc (c : Cpu) (f : Icc) : Keeps c (c.setIcc f) := .of_eq rfl rfl rfl rfl rfl rfl

theorem clearZero_zero (c : Cpu) : c.clearZero.regs.getD 0 0 = 0 := by
  simp only [clearZero, Array.getD_eq_getD_getElem?, Array.getElem?_setIfInBounds, if_true]
  split <;> rfl

/-- Register 0 of a processor in order is clear already. -/
theorem clearZero_of_zero (hzero : c.regs.getD 0 0 = 0) : c.clearZero = c := by
  have hregs : c.regs.setIfInBounds 0 0 = c.regs := by
    refine Array.ext_getElem? fun i => ?_
    rw [Array.getElem?_setIfInBounds]
    split
    · rename_i hi
      rw [← hi]
      split
      · rename_i hlt
        rw [Array.getD_eq_getD_getElem?, Array.getElem?_eq_getElem hlt] at hzero
        rw [Array.getElem?_eq_getElem hlt]
        exact congrArg some hzero.symm
      · rename_i hlt
        rw [Array.getElem?_eq_none (Nat.le_of_not_lt hlt)]
    · rfl
  unfold clearZero
  rw [hregs]

theorem keeps_clearZero (c : Cpu) : Keeps c c.clearZero := by
  refine ⟨rfl, ?_, ?_⟩
  · intro hs
    exact ⟨hs.toShaped.clearZero, clearZero_zero c, hs.small⟩
  · intro _ hm
    exact hm.congr rfl rfl rfl

/-- A change of the state register that comes to an existing window. -/
theorem keeps_setPsr (c : Cpu) {p : Psr} (hp : p.cwp < c.windows) : Keeps c { c with psr := p } := by
  refine ⟨rfl, ?_, ?_⟩
  · intro hs
    exact ⟨hs.toShaped.congr rfl rfl hp, hs.zero, hs.small⟩
  · intro _ hm
    exact hm.congr rfl rfl rfl

theorem keeps_setCwp (hs : c.Sound) {w : Nat} (hw : w < c.windows) : Keeps c (c.setCwp w) := by
  refine keeps_setPsr c ?_
  show (c.setCwp w).cwp < c.windows
  rw [setCwp_cwp (Nat.lt_of_lt_of_le hw hs.le)]
  exact hw

theorem keeps_rotate (hs : c.Sound) (t : Turn) : Keeps c (c.rotate t) :=
  keeps_setCwp hs (neighbour_lt hs.toShaped t)

/-- An advance to the next instruction takes the queued target. -/
theorem keeps_advance (c : Cpu) : Keeps c c.advance := .of_eq rfl rfl rfl rfl rfl rfl

/-! ### Instructions -/

theorem keeps_finish (c : Cpu) (rd : Reg) (v : Word) (setsIcc : Bool) (f : Icc) :
    Keeps c (c.finish rd v setsIcc f) := by
  unfold finish
  simp only
  split
  · exact (keeps_set c rd v).trans (keeps_setIcc _ f)
  · exact keeps_set c rd v

/-- Writing `%y` is invisible. -/
theorem keeps_setY (c : Cpu) (v : Word) : Keeps c { c with y := v } := .of_eq rfl rfl rfl rfl rfl rfl

theorem keeps_link (c : Cpu) (rd : Reg) (target : Word) : Keeps c (c.link rd target) :=
  (keeps_set c rd c.pc).trans (.of_eq rfl rfl rfl rfl rfl rfl)

theorem keeps_branch (c : Cpu) (cond : Cond) (annul : Bool) (offset : Word) :
    Keeps c (c.branch cond annul offset) := by
  unfold branch
  simp only
  split <;> split <;> exact .of_eq rfl rfl rfl rfl rfl rfl

/-- A base with the old low twelve bits has the old low four. -/
theorem base_mod_sixteen (v w : Word) (hw : w % 16 = 0) :
    (v - v % 0x1000 + w % 0x1000) % 16 = 0 := by
  have h4096 : (0x1000 : Word).toNat = 0x1000 := rfl
  rw [Word.mod_sixteen_iff] at hw ⊢
  rw [UInt32.toNat_add, Word.toNat_page, UInt32.toNat_mod, h4096]
  omega

theorem keeps_setState (c : Cpu) (r : StateReg) (v : Word) : Keeps c (c.setState r v) := by
  cases r with
  | y => exact keeps_setY c v
  | psr =>
    simp only [setState]
    split
    · exact keeps_setPsr c ‹_›
    · exact keeps_raise c (by rintro n ⟨⟩)
  | wim => exact keeps_setWim c fun w hw => isInvalid_mask rfl hw
  | tbr => exact keeps_setTbr c (base_mod_sixteen v c.tbr)

theorem keeps_supervised (c : Cpu) {act : Cpu → Cpu} (h : Keeps c (act c)) :
    Keeps c (c.supervised act) := by
  unfold supervised
  split
  · exact h
  · exact keeps_raise c (by rintro n ⟨⟩)

theorem keeps_moveWindow (hs : c.Sound) (t : Turn) (rs1 : Reg) (src : Operand) (rd : Reg) :
    Keeps c (c.moveWindow t rs1 src rd) := by
  unfold moveWindow
  simp only
  split
  · exact keeps_raise c (by cases t <;> rintro n ⟨⟩)
  · exact (keeps_rotate hs t).trans (keeps_set ..)

theorem keeps_returnFromTrap (hs : c.Sound) (rs1 : Reg) (src : Operand) :
    Keeps c (c.returnFromTrap rs1 src) := by
  unfold returnFromTrap
  simp only
  split
  · exact keeps_raise c (by rintro n ⟨⟩)
  · split
    · exact keeps_raise c (by rintro n ⟨⟩)
    · split
      · exact keeps_raise c (by rintro n ⟨⟩)
      · exact (keeps_rotate hs .up).trans (.of_eq rfl rfl rfl rfl rfl rfl)

theorem keeps_trapIf (c : Cpu) (cond : Cond) (rs1 : Reg) (src : Operand) :
    Keeps c (c.trapIf cond rs1 src) := by
  unfold trapIf
  split
  · refine keeps_raise c ?_
    rintro n ⟨⟩
    rw [UInt8.lt_iff_toNat_lt, UInt32.toNat_toUInt8, UInt32.toNat_mod]
    have h32 : (0x80 : UInt32).toNat = 0x80 := rfl
    have h8 : (0x80 : UInt8).toNat = 0x80 := rfl
    rw [h32, h8]
    omega
  · exact .refl c

/-- Every instruction that does not use the bus is made of such changes. -/
theorem keeps_operate (hs : c.Sound) (i : Instr) : Keeps c (c.operate i) := by
  cases i with
  | sethi v rd | shift op rs1 src rd => exact keeps_set ..
  | branch cond annul offset => exact keeps_branch ..
  | call offset | jmpl rs1 src rd => exact keeps_link ..
  | alu op setsIcc rs1 src rd => exact keeps_finish ..
  | mul signed setsIcc rs1 src rd => exact (keeps_setY c _).trans (keeps_finish ..)
  | mulscc rs1 src rd =>
    simp only [operate, multiplyStep]
    exact (keeps_setY c _).trans (keeps_finish ..)
  | div signed setsIcc rs1 src rd =>
    simp only [operate, divide]
    split
    · exact keeps_raise c (by rintro n ⟨⟩)
    · exact keeps_finish ..
  | readState r rd =>
    simp only [operate]
    exact keeps_supervised c (keeps_set ..)
  | writeState rs1 src r =>
    simp only [operate]
    exact keeps_supervised c (keeps_setState ..)
  | rett rs1 src => exact keeps_returnFromTrap hs rs1 src
  | trapIf cond rs1 src => exact keeps_trapIf ..
  | save rs1 src rd | restore rs1 src rd => exact keeps_moveWindow hs ..
  | _ => exact .refl c

/-! ### Loads, stores and steps -/

theorem keeps_load (c : Cpu) (kind : LoadKind) (addr : Word) (rd : Reg) :
    (c.load kind addr rd).Always fun _ c' => Keeps c c' :=
  always_load (fun c' r v h => h.trans (keeps_set c' r v))
    (fun c' h => h.trans (keeps_raise c' (by rintro n ⟨⟩))) (.refl c) kind addr rd

theorem keeps_store (c : Cpu) (kind : StoreKind) (addr : Word) (rd : Reg) :
    (c.store kind addr rd).Always fun _ c' => Keeps c c' :=
  always_store (fun c' h => h.trans (keeps_raise c' (by rintro n ⟨⟩))) (.refl c) kind addr rd

theorem keeps_execute (hs : c.Sound) (i : Instr) :
    (c.execute i).Always fun _ c' => Keeps c c' := by
  cases i with
  | load kind alternate rs1 src rd => exact keeps_load ..
  | store kind rd rs1 src => exact keeps_store ..
  | _ => exact keeps_operate hs _

theorem keeps_outcome (c : Cpu) : Keeps c c.outcome.2 := by
  unfold outcome
  split
  · exact .refl c
  · exact keeps_advance c

/-- A step keeps the invariants, whatever the bus answers. -/
theorem keeps_step (hs : c.Sound) : c.step.Always fun _ r => Keeps c r.2 := by
  have hclear := keeps_clearZero c
  have hfetch : Keeps c (c.raise .instructionAccess) := keeps_raise c (by rintro n ⟨⟩)
  refine always_step (fun _ => hfetch) (fun _ _ => hfetch) (fun _ _ _ _ => .refl c) ?_ ?_ ?_
  · intro _ _ _ _
    exact hclear.trans (.of_eq rfl rfl rfl rfl rfl rfl)
  · exact fun _ _ _ _ _ => hclear
  · intro word _ _ _ _
    refine (keeps_execute (hclear.sound hs) _).mono fun l c' h => ?_
    exact hclear.trans (h.trans (keeps_outcome c'))

/-- No target is queued between two steps: a completed step takes it, and a
trap comes before it is queued. -/
theorem always_step_idle (h : c.branchTarget = none) :
    c.step.Always fun _ r => r.2.branchTarget = none := by
  refine always_step (fun _ => h) (fun _ _ => h) (fun _ _ _ _ => h) (fun _ _ _ _ => rfl)
    (fun _ _ _ _ _ => h) fun word _ hp _ _ => ?_
  refine (execute_raises (show c.clearZero.pendingTrap = none from hp) _).mono ?_
  rintro l c₁ (h₁ | ⟨t, ⟨ht, -⟩, -⟩)
  · unfold outcome
    rw [h₁]
    rfl
  · have hpend : c₁.pendingTrap = some t := by rw [ht]; rfl
    unfold outcome
    rw [hpend, ht]
    exact (cutShort_branchTarget _ l).trans h

/-! ### Deliveries -/

/-- A trap base register with the number of a trap has the old low four bits. -/
theorem number_mod_sixteen (v w n : Word) (hw : w % 16 = 0) :
    (v - v % 0x1000 + n * 16 + w % 16) % 16 = 0 := by
  have h16 : (16 : Word).toNat = 16 := rfl
  rw [hw, Word.mod_sixteen_iff, UInt32.add_zero, UInt32.toNat_add, Word.toNat_page, UInt32.toNat_mul,
    h16]
  omega

theorem keeps_enterTrap (hs : c.Sound) (t : TrapKind) : Keeps c (c.enterTrap t) := by
  let c₁ : Cpu := { c with psr := { c.psr with ps := c.psr.s, s := true, et := false } }
  have h1 : Keeps c c₁ := .of_eq rfl rfl rfl rfl rfl rfl
  have h2 := h1.trans (keeps_rotate (h1.sound hs) .down)
  have h3 := h2.trans (keeps_set _ Reg.l1 c.pc)
  have h4 := h3.trans (keeps_set _ Reg.l2 c.npc)
  exact h4.trans (keeps_setTbr _ (number_mod_sixteen _ _ _))

theorem keeps_loadWindow (c : Cpu) (addr : Word) (rs : List Reg) :
    (c.loadWindow addr rs).Always fun _ c' => Keeps c c' := by
  refine (always_loadWindow c addr rs).mono ?_
  rintro l c' rfl
  exact absorb_induction (fun c' r v h => h.trans (keeps_set c' r v)) (.refl c) rs l

theorem keeps_spill (hs : c.Sound) : c.spill.Always fun _ c' => Keeps c c' := by
  have hdown := keeps_rotate hs .down
  have hup := hdown.trans (keeps_rotate (hdown.sound hs) .up)
  have hmark : ∀ w, c.windows ≤ w → ({ c with wim := c.markDown } : Cpu).isInvalid w = false :=
    fun w hw => isInvalid_markDown_of_le hs.toShaped hw
  have hback : Keeps c { (c.rotate .down).rotate .up with wim := c.markDown } :=
    hup.trans (keeps_setWim _ hmark)
  unfold spill
  simp only
  refine .map ?_
  split
  · exact hback
  · refine (always_storeWindow _ _ _).mono ?_
    rintro l c' ⟨rfl, -⟩
    exact hback

theorem keeps_fill (hs : c.Sound) : c.fill.Always fun _ c' => Keeps c c' := by
  have hup := keeps_rotate hs .up
  have hup2 := hup.trans (keeps_rotate (hup.sound hs) .up)
  have hback : ∀ c', Keeps c c' → Keeps c { (c'.rotate .down).rotate .down with wim := c.markUp } := by
    intro c' h
    have h1 := h.trans (keeps_rotate (h.sound hs) .down)
    have h2 := h1.trans (keeps_rotate (h1.sound hs) .down)
    refine h2.trans (keeps_setWim _ ?_)
    intro w hw
    rw [windows, h2.config] at hw
    exact isInvalid_markUp_of_le hs.toShaped hw
  unfold fill
  simp only
  refine .map ?_
  split
  · exact hback _ hup2
  · refine (keeps_loadWindow _ _ _).mono ?_
    intro l c' h
    exact hback c' (hup2.trans h)

theorem keeps_serve (hs : c.Sound) (r : Routine) : (c.serve r).Always fun _ c' => Keeps c c' := by
  have hup : ∀ c', Keeps c c' → Keeps c (c'.rotate .up) := fun c' h =>
    h.trans (keeps_rotate (h.sound hs) .up)
  cases r with
  | vector => exact .of_eq rfl rfl rfl rfl rfl rfl
  | spill => exact .map ((keeps_spill hs).mono fun _ => hup)
  | fill => exact .map ((keeps_fill hs).mono fun _ => hup)

theorem keeps_deliver (hs : c.Sound) : c.deliver.Always fun _ r => Keeps c r.2 := by
  refine always_deliver (.refl c) (fun _ => .refl c) ?_
  intro t routine
  have henter := keeps_enterTrap hs t
  refine (keeps_serve (henter.sound hs) routine).mono ?_
  intro l c' h
  have hdone : Keeps c' { c' with pendingTrap := none } := keeps_setTrap c' (by rintro t ⟨⟩)
  exact henter.trans (h.trans hdone)

/-- A delivery leaves a queued target as it is. -/
theorem always_deliver_target (hs : c.Sound) :
    c.deliver.Always fun _ r => r.2.branchTarget = c.branchTarget := by
  refine always_deliver rfl (fun _ => rfl) ?_
  intro t routine
  have hshape := hs.toShaped.enterTrap t
  have henter := (resumes_enterTrap c t).target
  generalize c.enterTrap t = c₁ at hshape henter
  cases routine with
  | vector => exact henter
  | spill => exact .map ((always_spill hshape).mono fun _ _ h => h.1.target.trans henter)
  | fill => exact .map ((always_fill hshape).mono fun _ _ h => h.1.target.trans henter)

/-! ### Fresh processors -/

variable {config : Configuration}

/-- A configuration is accepted for two to 32 windows. -/
theorem ofConfiguration_ok (h : ofConfiguration config = .ok c) :
    (2 ≤ config.windows.toNat ∧ config.windows.toNat ≤ 32) ∧ c =
      { pc := 0, npc := 4, regs := Array.replicate config.registerCount 0, psr := resetState,
        wim := 2, tbr := 0, y := 0, pendingTrap := none, pendingAnnul := false,
        branchTarget := none, config } := by
  unfold ofConfiguration Configuration.validate at h
  split at h
  · cases h
  · rename_i hv
    split at hv
    · rename_i hwin
      cases h
      exact ⟨⟨UInt8.le_iff_toNat_le.mp hwin.1, UInt8.le_iff_toNat_le.mp hwin.2⟩, rfl⟩
    · cases hv

/-- A fresh processor is in order. -/
theorem fresh_sound (h : ofConfiguration config = .ok c) : c.Sound := by
  obtain ⟨⟨h2, h32⟩, rfl⟩ := ofConfiguration_ok h
  refine ⟨⟨h2, h32, Array.size_replicate, ?_⟩, ?_, ?_⟩
  · exact Nat.lt_of_lt_of_le Nat.zero_lt_two h2
  · have hpos : 0 < config.registerCount := by unfold Configuration.registerCount; omega
    rw [Array.getD_eq_getD_getElem?, Array.getElem?_replicate, if_pos hpos]
    rfl
  · rintro t ⟨⟩

/-- After a reset there is one mark, on window 1. -/
theorem masked_of_wim_two (h2 : 2 ≤ c.windows) (hwim : c.wim = 2) (htbr : c.tbr % 16 = 0) :
    c.Masked := by
  refine ⟨?_, htbr⟩
  intro w hw
  have hmark := marked_of_wim_two h2 hwim
  rw [hmark.2 w, decide_eq_false]
  omega

theorem fresh_masked (h : ofConfiguration config = .ok c) : c.Masked := by
  obtain ⟨⟨h2, -⟩, rfl⟩ := ofConfiguration_ok h
  exact masked_of_wim_two h2 rfl rfl

end Cpu
end SparcIU
