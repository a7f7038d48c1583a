/-
# How the window traps are served

An internal delivery enters the window below, which shows in two of its locals
and nowhere else (`Cpu.peek_enterTrap`), moves a window to or from its stack,
moves the mark, and comes back to the trapped instruction. A spill leaves the
registers alone. A fill takes in the words that were read (`Cpu.absorb`), so
its effect on the registers is a function of its transcript.

Key definitions: `Cpu.Resumes`, `Cpu.Served`, `Cpu.absorb`, `Cpu.filled`.
Key theorems: `Cpu.peek_enterTrap`, `Cpu.get_absorb`, `Cpu.peek_absorb`,
`Cpu.always_deliver_overflow`, `Cpu.always_deliver_underflow`,
`Cpu.get_overflow`, `Cpu.get_underflow`, `Cpu.peek_filled_three`.
-/
import SparcIU.Proofs.Transcript
import SparcIU.Proofs.Ring
import SparcIU.Execution.Delivery

namespace SparcIU
namespace Cpu

open Window

variable {c c' c'' : Cpu}

/-- `c'` goes on where `c` stood. -/
structure Resumes (c c' : Cpu) : Prop where
  config : c'.config = c.config
  pc : c'.pc = c.pc
  npc : c'.npc = c.npc
  y : c'.y = c.y
  icc : c'.psr.icc = c.psr.icc
  annul : c'.pendingAnnul = c.pendingAnnul
  target : c'.branchTarget = c.branchTarget

theorem Resumes.trans (h : Resumes c c') (h' : Resumes c' c'') : Resumes c c'' :=
  ⟨h'.config.trans h.config, h'.pc.trans h.pc, h'.npc.trans h.npc, h'.y.trans h.y,
    h'.icc.trans h.icc, h'.annul.trans h.annul, h'.target.trans h.target⟩

theorem resumes_set (c : Cpu) (r : Reg) (v : Word) : Resumes c (c.set r v) := by
  constructor <;> simp

theorem resumes_rotate (c : Cpu) (t : Turn) : Resumes c (c.rotate t) :=
  ⟨rfl, rfl, rfl, rfl, rfl, rfl, rfl⟩

/-- What a window shows is a matter of the configuration and the file. -/
theorem peek_congr (hconfig : c'.config = c.config) (hregs : c'.regs = c.regs) (w : Nat) (r : Reg) :
    c'.peek w r = c.peek w r := by
  unfold peek; rw [windows, hconfig, hregs]

/-! ### Entering the window of a trap -/

theorem resumes_enterTrap (c : Cpu) (t : TrapKind) : Resumes c (c.enterTrap t) := by
  constructor <;> simp [enterTrap, rotate, setCwp]

@[simp] theorem enterTrap_wim (t : TrapKind) : (c.enterTrap t).wim = c.wim := by
  simp [enterTrap, rotate, setCwp]

/-- The processor in the window of a trap, before the window is written. -/
def inTrap (c : Cpu) : Cpu :=
  { c with psr := { c.psr with ps := c.psr.s, s := true, et := false } }.rotate .down

theorem Shaped.supervisor (h : c.Shaped) :
    Shaped { c with psr := { c.psr with ps := c.psr.s, s := true, et := false } } :=
  h.congr rfl rfl h.cwp_lt

theorem Shaped.inTrap (h : c.Shaped) : c.inTrap.Shaped := h.supervisor.rotate .down

theorem inTrap_cwp (h : c.Shaped) : c.inTrap.cwp = below c.windows c.cwp :=
  (rotate_cwp h.supervisor .down).trans (neighbour_down h.supervisor)

theorem enterTrap_cwp (h : c.Shaped) (t : TrapKind) :
    (c.enterTrap t).cwp = below c.windows c.cwp := by
  show ((c.inTrap.set Reg.l1 c.pc).set Reg.l2 c.npc).cwp = _
  rw [set_cwp, set_cwp, inTrap_cwp h]

theorem Shaped.enterTrap (h : c.Shaped) (t : TrapKind) : (c.enterTrap t).Shaped := by
  have h1 := (h.inTrap.set Reg.l1 c.pc).set Reg.l2 c.npc
  exact h1.congr rfl rfl h1.cwp_lt

/-- The window of a trap is written in two locals, which no other window
shows. -/
theorem peek_enterTrap (h : c.Shaped) (t : TrapKind) {w : Nat} (hw : w < c.windows) {r : Reg}
    (hne : w = below c.windows c.cwp → r ≠ Reg.l1 ∧ r ≠ Reg.l2) :
    (c.enterTrap t).peek w r = c.peek w r := by
  have hbelow := below_lt h.cwp_lt
  show ((c.inTrap.set Reg.l1 c.pc).set Reg.l2 c.npc).peek w r = _
  rw [peek_set_of_ne (h.inTrap.set ..) hw, peek_set_of_ne h.inTrap hw]
  · rfl
  · rw [inTrap_cwp h]
    refine .inr fun he => ?_
    obtain ⟨hw', hr⟩ := (place_local hbelow hw (by decide) (by decide)).mp he
    exact (hne hw'.symm).1 hr.symm
  · rw [set_cwp, inTrap_cwp h]
    refine .inr fun he => ?_
    obtain ⟨hw', hr⟩ := (place_local hbelow hw (by decide) (by decide)).mp he
    exact (hne hw'.symm).2 hr.symm

/-! ### Taking in a window -/

theorem saveArea_ge : ∀ r ∈ Reg.saveArea, 16 ≤ r.val := by decide

theorem saveArea_slot : ∀ r : Reg, 16 ≤ r.val → Reg.saveArea[r.val - 16]? = some r := by decide

/-- The registers loaded with the words that were read for them, in order. -/
def absorb (c : Cpu) : List Reg → List Access → Cpu
  | r :: rs, a :: l =>
    match a.loaded with
    | some v => (c.set r v).absorb rs l
    | none => c.absorb rs l
  | _, _ => c

/-- What a register setting keeps, a row of them keeps. -/
theorem absorb_induction {P : Cpu → Prop} (hset : ∀ c r v, P c → P (c.set r v)) (hc : P c)
    (rs : List Reg) (l : List Access) : P (c.absorb rs l) := by
  induction rs generalizing c l with
  | nil => exact hc
  | cons r rs ih =>
    cases l with
    | nil => exact hc
    | cons a l =>
      simp only [absorb]
      split
      · exact ih (hset c r _ hc) l
      · exact ih hc l

theorem resumes_absorb (c : Cpu) (rs : List Reg) (l : List Access) : Resumes c (c.absorb rs l) :=
  absorb_induction (fun c' r v h => h.trans (resumes_set c' r v))
    ⟨rfl, rfl, rfl, rfl, rfl, rfl, rfl⟩ rs l

@[simp] theorem absorb_cwp (rs : List Reg) (l : List Access) : (c.absorb rs l).cwp = c.cwp :=
  absorb_induction (P := fun c' => c'.cwp = c.cwp) (fun c' r v h => (set_cwp c' r v).trans h) rfl rs l

theorem Shaped.absorb (h : c.Shaped) (rs : List Reg) (l : List Access) : (c.absorb rs l).Shaped :=
  absorb_induction (fun _ r v h => h.set r v) h rs l

/-- What lies in no place of the registers is left alone. -/
theorem peek_absorb (h : c.Shaped) {rs : List Reg} {w : Nat} (hw : w < c.windows) {r' : Reg}
    (hne : ∀ r ∈ rs, place c.windows c.cwp r ≠ place c.windows w r') (l : List Access) :
    (c.absorb rs l).peek w r' = c.peek w r' := by
  induction rs generalizing c l with
  | nil => rfl
  | cons r rs ih =>
    have hrest : ∀ r ∈ rs, place c.windows c.cwp r ≠ place c.windows w r' := fun r hr =>
      hne r (List.mem_cons_of_mem _ hr)
    cases l with
    | nil => rfl
    | cons a l =>
      simp only [absorb]
      split
      · rename_i v _
        rw [ih (h.set r v) (by simpa using hw) (by simpa using hrest),
          peek_set_of_ne h hw v (.inr (hne r List.mem_cons_self))]
      · exact ih h hw hrest l

theorem get_absorb_of_notMem (h : c.Shaped) {rs : List Reg} {r : Reg} (hr : r ∉ rs)
    (l : List Access) : (c.absorb rs l).get r = c.get r := by
  rw [get_eq_peek (h.absorb rs l), absorb_cwp, peek_absorb h h.cwp_lt, get_eq_peek h]
  intro r' hr' he
  exact hr ((place_inj h.two_le).mp he ▸ hr')

/-- A register is loaded with the word that was read for it, if there is one. -/
theorem get_absorb (h : c.Shaped) {rs : List Reg} (hd : rs.Nodup) {l : List Access} {i : Nat} {r : Reg}
    (hr : rs[i]? = some r) (h0 : r ≠ 0) :
    (c.absorb rs l).get r = (l[i]?.bind Access.loaded).getD (c.get r) := by
  induction rs generalizing c l i with
  | nil => cases hr
  | cons r₀ rs ih =>
    obtain ⟨hnot, hd⟩ := List.nodup_cons.mp hd
    cases l with
    | nil => rfl
    | cons a l =>
      simp only [absorb]
      cases i with
      | zero =>
        obtain rfl : r₀ = r := Option.some.inj hr
        cases ha : a.loaded with
        | none =>
          rw [get_absorb_of_notMem h hnot]
          simp [ha]
        | some v =>
          rw [get_absorb_of_notMem (h.set r₀ v) hnot, get_set h, if_pos ⟨h0, rfl⟩]
          simp [ha]
      | succ i =>
        have hr' : rs[i]? = some r := hr
        cases ha : a.loaded with
        | none => exact ih h hd hr'
        | some v =>
          have hne : r₀ ≠ r := fun he => hnot (he ▸ List.mem_of_getElem? hr')
          rw [ih (h.set r₀ v) hd hr', get_set h, if_neg fun hc => hne hc.2]
          simp

theorem always_loadWindow (c : Cpu) (addr : Word) (rs : List Reg) :
    (c.loadWindow addr rs).Always fun l c' => c' = c.absorb rs l := by
  induction rs generalizing c addr with
  | nil => exact rfl
  | cons r rs ih =>
    intro answer
    cases answer with
    | ok v => exact ih (c.set r v) (addr + 4)
    | error e => exact ih c (addr + 4)

theorem always_storeWindow (c : Cpu) (addr : Word) (rs : List Reg) :
    (c.storeWindow addr rs).Always fun l c' => c' = c ∧ ∀ a ∈ l, a.loaded = none := by
  induction rs generalizing addr with
  | nil => exact ⟨rfl, fun a ha => absurd ha List.not_mem_nil⟩
  | cons r rs ih =>
    intro answer
    have hrest := (ih (addr + 4)).mono (Q := fun l c' =>
      c' = c ∧ ∀ a ∈ Access.write addr (c.get r) answer :: l, a.loaded = none) ?_
    · cases answer with
      | ok _ => exact hrest
      | error e => exact hrest
    · rintro l c' ⟨hc, hl⟩
      refine ⟨hc, fun a ha => ?_⟩
      rcases List.mem_cons.mp ha with rfl | ha
      · rfl
      · exact hl a ha

/-- The processor in the window that an underflow fills. -/
def aboveTrap (c : Cpu) : Cpu := ((c.enterTrap .windowUnderflow).rotate .up).rotate .up

/-- The same with the words that were read for the window. -/
def filled (c : Cpu) (l : List Access) : Cpu := c.aboveTrap.absorb Reg.saveArea l

/-! ### The service as a whole -/

theorem rotate_up_cwp (h : c.Shaped) : (c.rotate .up).cwp = above c.windows c.cwp :=
  (rotate_cwp h .up).trans (neighbour_up h)

theorem rotate_down_cwp (h : c.Shaped) : (c.rotate .down).cwp = below c.windows c.cwp :=
  (rotate_cwp h .down).trans (neighbour_down h)

theorem rotate_down_up (h : c.Shaped) : ((c.rotate .down).rotate .up).cwp = c.cwp := by
  calc ((c.rotate .down).rotate .up).cwp = above c.windows (c.rotate .down).cwp :=
        rotate_up_cwp (h.rotate .down)
    _ = above c.windows (below c.windows c.cwp) := by rw [rotate_down_cwp h]
    _ = c.cwp := above_below h.cwp_lt

theorem rotate_up_up (h : c.Shaped) :
    ((c.rotate .up).rotate .up).cwp = above c.windows (above c.windows c.cwp) := by
  calc ((c.rotate .up).rotate .up).cwp = above c.windows (c.rotate .up).cwp :=
        rotate_up_cwp (h.rotate .up)
    _ = above c.windows (above c.windows c.cwp) := by rw [rotate_up_cwp h]

theorem rotate_down_down (h : c.Shaped) :
    ((c.rotate .down).rotate .down).cwp = below c.windows (below c.windows c.cwp) := by
  calc ((c.rotate .down).rotate .down).cwp = below c.windows (c.rotate .down).cwp :=
        rotate_down_cwp (h.rotate .down)
    _ = below c.windows (below c.windows c.cwp) := by rw [rotate_down_cwp h]

/-- A spill comes back with the mark one window down and the file as it was. -/
theorem always_spill (h : c.Shaped) : c.spill.Always fun l c' =>
    Resumes c c' ∧ c'.cwp = c.cwp ∧ c'.wim = c.markDown ∧ c'.regs = c.regs ∧
      ∀ a ∈ l, a.loaded = none := by
  have hback : Resumes c ((c.rotate .down).rotate .up) :=
    (resumes_rotate c .down).trans (resumes_rotate _ .up)
  have hres : Resumes c { (c.rotate .down).rotate .up with wim := c.markDown } :=
    ⟨hback.config, hback.pc, hback.npc, hback.y, hback.icc, hback.annul, hback.target⟩
  unfold spill
  simp only
  refine .map ?_
  split
  · exact ⟨hres, rotate_down_up h, rfl, rfl, fun a ha => absurd ha List.not_mem_nil⟩
  · refine (always_storeWindow _ _ _).mono ?_
    rintro l c' ⟨rfl, hl⟩
    exact ⟨hres, rotate_down_up h, rfl, rfl, hl⟩

/-- A fill comes back with the mark one window up, and has taken in what it
read two windows above. -/
theorem always_fill (h : c.Shaped) : c.fill.Always fun l c' =>
    Resumes c c' ∧ c'.cwp = c.cwp ∧ c'.wim = c.markUp ∧
      c'.regs = (((c.rotate .up).rotate .up).absorb Reg.saveArea l).regs := by
  have h2 := (h.rotate .up).rotate .up
  have hend : ∀ l, let c' := ((c.rotate .up).rotate .up).absorb Reg.saveArea l
      Resumes c { (c'.rotate .down).rotate .down with wim := c.markUp } ∧
        ((c'.rotate .down).rotate .down).cwp = c.cwp := by
    intro l c'
    have hs : c'.Shaped := h2.absorb _ l
    have hup : Resumes c ((c.rotate .up).rotate .up) :=
      (resumes_rotate c .up).trans (resumes_rotate _ .up)
    have hloaded : Resumes c c' := hup.trans (resumes_absorb _ _ l)
    have hdown : Resumes c' ((c'.rotate .down).rotate .down) :=
      (resumes_rotate c' .down).trans (resumes_rotate _ .down)
    have hres := hloaded.trans hdown
    have hwin : c'.windows = c.windows := by rw [windows, hloaded.config]
    have hcwp : c'.cwp = above c.windows (above c.windows c.cwp) := by
      rw [absorb_cwp, rotate_up_up h]
    refine ⟨⟨hres.config, hres.pc, hres.npc, hres.y, hres.icc, hres.annul, hres.target⟩, ?_⟩
    calc ((c'.rotate .down).rotate .down).cwp = below c'.windows (below c'.windows c'.cwp) :=
          rotate_down_down hs
      _ = below c.windows (below c.windows (above c.windows (above c.windows c.cwp))) := by
          rw [hwin, hcwp]
      _ = c.cwp := by rw [below_above, below_above]
  unfold fill
  simp only
  refine .map ?_
  split
  · obtain ⟨hres, hcwp⟩ := hend []
    exact ⟨hres, hcwp, rfl, rfl⟩
  · refine (always_loadWindow _ _ _).mono ?_
    rintro l c' rfl
    obtain ⟨hres, hcwp⟩ := hend l
    exact ⟨hres, hcwp, rfl, rfl⟩

/-- `c'` is back at the trapped instruction in the window it trapped in. -/
structure Served (c c' : Cpu) : Prop extends Resumes c c' where
  cwp : c'.cwp = c.cwp
  trap : c'.pendingTrap = none

/-- A trap that has a routine is entered and served. -/
theorem deliver_eq {t : TrapKind} {routine : Routine} (hp : c.pendingTrap = some t)
    (hroutine : c.config.trapMode.routine t = some routine) : c.deliver =
      .remark (.enters c.pc c.npc c.cwp t) (((c.enterTrap t).serve routine).map
        fun c => (none, { c with pendingTrap := none })) := by
  unfold deliver
  rw [hp]
  simp only [hroutine]

/-- A delivery finds no trap, refuses one, or enters and serves it. -/
theorem always_deliver {P : List Access → Option Trap × Cpu → Prop}
    (hnone : P [] (none, c)) (hrefused : ∀ t, P [] (some (c.report t), c))
    (hserved : ∀ t routine, ((c.enterTrap t).serve routine).Always fun l c' =>
      P l (none, { c' with pendingTrap := none })) : c.deliver.Always P := by
  cases hp : c.pendingTrap with
  | none =>
    unfold deliver
    rw [hp]
    exact hnone
  | some t =>
    cases hroutine : c.config.trapMode.routine t with
    | none =>
      unfold deliver
      rw [hp]
      simp only [hroutine]
      exact hrefused t
    | some routine =>
      rw [deliver_eq hp hroutine, Dialogue.always_remark]
      exact .map (hserved t routine)

theorem routine_overflow (hmode : c.config.trapMode = .internal) :
    c.config.trapMode.routine .windowOverflow = some .spill := by
  rw [hmode]
  rfl

theorem routine_underflow (hmode : c.config.trapMode = .internal) :
    c.config.trapMode.routine .windowUnderflow = some .fill := by
  rw [hmode]
  rfl

/-- After the service of a trap the last move is up, out of its window. -/
theorem served_of_serve {c₁ : Cpu} (h : c.Shaped) (henter : Resumes c c₁)
    (hbelow : c₁.cwp = below c.windows c.cwp) (hr : Resumes c₁ c') (hcwp : c'.cwp = c₁.cwp)
    (hs : c'.Shaped) : Served c { c'.rotate .up with pendingTrap := none } := by
  have h1 := (henter.trans hr).trans (resumes_rotate c' .up)
  have hwin : c'.windows = c.windows := by rw [windows, (henter.trans hr).config]
  refine ⟨⟨h1.config, h1.pc, h1.npc, h1.y, h1.icc, h1.annul, h1.target⟩, ?_, rfl⟩
  show (c'.rotate .up).cwp = c.cwp
  rw [rotate_up_cwp hs, hwin, hcwp, hbelow, above_below h.cwp_lt]

theorem Resumes.shaped (hr : Resumes c c') (h : c.Shaped) (hcwp : c'.cwp = c.cwp)
    (hsize : c'.regs.size = c.regs.size) : c'.Shaped :=
  h.congr hr.config hsize (hcwp ▸ h.cwp_lt)

/-- **An overflow is served.** The mark is one window down; of the registers
only the window of the trap was written. -/
theorem always_deliver_overflow (h : c.Shaped) (hmode : c.config.trapMode = .internal)
    (hp : c.pendingTrap = some .windowOverflow) : c.deliver.Always fun l r =>
      r.1 = none ∧ Served c r.2 ∧ r.2.wim = c.markDown ∧
        r.2.regs = (c.enterTrap .windowOverflow).regs ∧ ∀ a ∈ l, a.loaded = none := by
  have ht := h.enterTrap .windowOverflow
  have henter := resumes_enterTrap c .windowOverflow
  have hbelow := enterTrap_cwp h .windowOverflow
  have hmark : (c.enterTrap .windowOverflow).markDown = c.markDown := by
    simp only [markDown, enterTrap_wim, henter.config]
  rw [deliver_eq hp (routine_overflow hmode), Dialogue.always_remark]
  generalize c.enterTrap .windowOverflow = c₁ at ht henter hbelow hmark ⊢
  refine Dialogue.Always.map (Dialogue.Always.map ((always_spill ht).mono ?_))
  rintro l c' ⟨hr, hcwp, hwim, hregs, hl⟩
  have hs := hr.shaped ht hcwp (by rw [hregs])
  exact ⟨rfl, served_of_serve h henter hbelow hr hcwp hs, hwim.trans hmark, hregs, hl⟩

/-- **An underflow is served.** The mark is one window up; besides the window of
the trap, the window above took in what was read. -/
theorem always_deliver_underflow (h : c.Shaped) (hmode : c.config.trapMode = .internal)
    (hp : c.pendingTrap = some .windowUnderflow) : c.deliver.Always fun l r =>
      r.1 = none ∧ Served c r.2 ∧ r.2.wim = c.markUp ∧ r.2.regs = (c.filled l).regs := by
  unfold filled aboveTrap
  have ht := h.enterTrap .windowUnderflow
  have henter := resumes_enterTrap c .windowUnderflow
  have hbelow := enterTrap_cwp h .windowUnderflow
  have hmark : (c.enterTrap .windowUnderflow).markUp = c.markUp := by
    simp only [markUp, enterTrap_wim, henter.config]
  rw [deliver_eq hp (routine_underflow hmode), Dialogue.always_remark]
  generalize c.enterTrap .windowUnderflow = c₁ at ht henter hbelow hmark ⊢
  refine Dialogue.Always.map (Dialogue.Always.map ((always_fill ht).mono ?_))
  rintro l c' ⟨hr, hcwp, hwim, hregs⟩
  have hs : c'.Shaped := by
    refine hr.shaped ht hcwp ?_
    rw [hregs, (((ht.rotate .up).rotate .up).absorb Reg.saveArea l).size, ht.size, windows,
      (resumes_absorb _ _ l).config]
    rfl
  exact ⟨rfl, served_of_serve h henter hbelow hr hcwp hs, hwim.trans hmark, hregs⟩

/-! ### What the bus sees of a service -/

section Bus

variable {σ : Type} (bus : Bus σ) (s : σ)

/-- The processor in the window that an overflow spills. -/
def belowTrap (c : Cpu) : Cpu := (c.enterTrap .windowOverflow).rotate .down

theorem device_overflow (hmode : c.config.trapMode = .internal)
    (hp : c.pendingTrap = some .windowOverflow) (hsp : c.belowTrap.get Reg.sp ≠ 0) :
    (c.deliver.hold bus s).2 = ((c.belowTrap.storeWindow (c.belowTrap.get Reg.sp) Reg.saveArea).hold
      bus (bus.hear (.enters c.pc c.npc c.cwp .windowOverflow) s)).2 := by
  rw [deliver_eq hp (routine_overflow hmode)]
  simp only [serve, spill, Dialogue.hold, Dialogue.hold_map]
  rw [if_neg (by exact hsp)]
  rfl

theorem device_underflow (hmode : c.config.trapMode = .internal)
    (hp : c.pendingTrap = some .windowUnderflow) (hsp : c.aboveTrap.get Reg.sp ≠ 0) :
    (c.deliver.hold bus s).2 = ((c.aboveTrap.loadWindow (c.aboveTrap.get Reg.sp) Reg.saveArea).hold
      bus (bus.hear (.enters c.pc c.npc c.cwp .windowUnderflow) s)).2 := by
  rw [deliver_eq hp (routine_underflow hmode)]
  simp only [serve, fill, Dialogue.hold, Dialogue.hold_map]
  rw [if_neg (by exact hsp)]
  rfl

theorem transcript_underflow (hmode : c.config.trapMode = .internal)
    (hp : c.pendingTrap = some .windowUnderflow) (hsp : c.aboveTrap.get Reg.sp ≠ 0) :
    c.deliver.transcript bus s =
      (c.aboveTrap.loadWindow (c.aboveTrap.get Reg.sp) Reg.saveArea).transcript bus
        (bus.hear (.enters c.pc c.npc c.cwp .windowUnderflow) s) := by
  rw [deliver_eq hp (routine_underflow hmode)]
  simp only [serve, fill, Dialogue.transcript, Dialogue.transcript_map]
  rw [if_neg (by exact hsp)]
  rfl

end Bus

/-! ### The filled window -/

theorem Shaped.aboveTrap (h : c.Shaped) : c.aboveTrap.Shaped :=
  ((h.enterTrap .windowUnderflow).rotate .up).rotate .up

theorem resumes_aboveTrap (c : Cpu) : Resumes c c.aboveTrap :=
  (resumes_enterTrap c _).trans ((resumes_rotate _ .up).trans (resumes_rotate _ .up))

theorem resumes_filled (c : Cpu) (l : List Access) : Resumes c (c.filled l) :=
  (resumes_aboveTrap c).trans (resumes_absorb _ _ l)

@[simp] theorem aboveTrap_windows : c.aboveTrap.windows = c.windows := by
  rw [windows, (resumes_aboveTrap c).config]

@[simp] theorem filled_windows (l : List Access) : (c.filled l).windows = c.windows := by
  rw [windows, (resumes_filled c l).config]

theorem aboveTrap_cwp (h : c.Shaped) : c.aboveTrap.cwp = above c.windows c.cwp := by
  have hwin : (c.enterTrap .windowUnderflow).windows = c.windows := aboveTrap_windows
  calc c.aboveTrap.cwp = above c.windows (above c.windows (c.enterTrap .windowUnderflow).cwp) := by
        rw [← hwin]
        exact rotate_up_up (h.enterTrap .windowUnderflow)
    _ = above c.windows (above c.windows (below c.windows c.cwp)) := by rw [enterTrap_cwp h]
    _ = above c.windows c.cwp := by rw [above_below h.cwp_lt]

theorem peek_aboveTrap (h : c.Shaped) {w : Nat} (hw : w < c.windows) {r : Reg}
    (hne : w = below c.windows c.cwp → r ≠ Reg.l1 ∧ r ≠ Reg.l2) :
    c.aboveTrap.peek w r = c.peek w r :=
  peek_enterTrap h .windowUnderflow hw hne

theorem Shaped.filled (h : c.Shaped) (l : List Access) : (c.filled l).Shaped :=
  h.aboveTrap.absorb _ l

/-- The window that a fill goes by shows what it showed before the entry. -/
theorem get_aboveTrap (h : c.Shaped) {r : Reg}
    (hne : above c.windows c.cwp = below c.windows c.cwp → r ≠ Reg.l1 ∧ r ≠ Reg.l2) :
    c.aboveTrap.get r = c.peek (above c.windows c.cwp) r := by
  rw [get_eq_peek h.aboveTrap, aboveTrap_cwp h, peek_aboveTrap h (above_lt h.cwp_lt) hne]

/-- The window that a spill goes by shows what it showed before the entry. -/
theorem get_belowTrap (h : c.Shaped) {r : Reg}
    (hne : below c.windows (below c.windows c.cwp) = below c.windows c.cwp →
      r ≠ Reg.l1 ∧ r ≠ Reg.l2) :
    c.belowTrap.get r = c.peek (below c.windows (below c.windows c.cwp)) r := by
  have ht := h.enterTrap .windowOverflow
  have hlt := below_lt (below_lt h.cwp_lt)
  have hwin : (c.enterTrap .windowOverflow).windows = c.windows := by
    rw [windows, (resumes_enterTrap c _).config]
  have hnext : (c.enterTrap .windowOverflow).neighbour .down =
      below c.windows (below c.windows c.cwp) := by
    rw [neighbour_down ht, hwin, enterTrap_cwp h]
  have hget : c.belowTrap.get r =
      (c.enterTrap .windowOverflow).peek ((c.enterTrap .windowOverflow).neighbour .down) r :=
    get_setCwp ht (neighbour_lt ht .down) r
  rw [hget, hnext, peek_enterTrap h .windowOverflow hlt hne]

/-- What a window shows is what it was, unless a place of the filled window or a
local of the trap's window is seen in it. -/
theorem peek_filled (h : c.Shaped) {w : Nat} (hw : w < c.windows) {r : Reg}
    (hbelow : w = below c.windows c.cwp → r ≠ Reg.l1 ∧ r ≠ Reg.l2)
    (hne : ∀ r' : Reg, 16 ≤ r'.val →
      place c.windows (above c.windows c.cwp) r' ≠ place c.windows w r) (l : List Access) :
    (c.filled l).peek w r = c.peek w r := by
  unfold filled
  rw [peek_absorb h.aboveTrap (by simpa using hw), peek_aboveTrap h hw hbelow]
  intro r' hr'
  rw [aboveTrap_windows, aboveTrap_cwp h]
  exact hne r' (saveArea_ge r' hr')

/-- The filled window shows the words that were read for it. -/
theorem peek_filled_above (h : c.Shaped) (l : List Access) {i : Nat} {r : Reg}
    (hr : Reg.saveArea[i]? = some r) :
    (c.filled l).peek (above c.windows c.cwp) r =
      (l[i]?.bind Access.loaded).getD (c.aboveTrap.peek (above c.windows c.cwp) r) := by
  have h0 : r ≠ 0 := by
    rintro rfl
    exact absurd (saveArea_ge 0 (List.mem_of_getElem? hr)) (by decide)
  have hget := get_absorb h.aboveTrap (l := l) (by decide) hr h0
  rwa [get_eq_peek (h.aboveTrap.absorb _ l), get_eq_peek h.aboveTrap, absorb_cwp,
    aboveTrap_cwp h] at hget

/-! ### What is seen after the service -/

theorem cwp_ne_below (h : c.Shaped) : c.cwp ≠ below c.windows c.cwp := (below_ne h.two_le).symm

theorem Served.shaped_overflow (hs : Served c c') (h : c.Shaped)
    (hregs : c'.regs = (c.enterTrap .windowOverflow).regs) : c'.Shaped := by
  refine hs.toResumes.shaped h hs.cwp ?_
  rw [hregs, (h.enterTrap _).size, h.size, windows, (resumes_enterTrap c _).config]

/-- After an overflow a window shows what it did, but for two locals. -/
theorem peek_overflow (h : c.Shaped) (hs : Served c c')
    (hregs : c'.regs = (c.enterTrap .windowOverflow).regs) {w : Nat} (hw : w < c.windows) {r : Reg}
    (hne : w = below c.windows c.cwp → r ≠ Reg.l1 ∧ r ≠ Reg.l2) : c'.peek w r = c.peek w r := by
  rw [peek_congr (hs.config.trans (resumes_enterTrap c _).config.symm) hregs]
  exact peek_enterTrap h _ hw hne

/-- After an overflow all registers are what they were. -/
theorem get_overflow (h : c.Shaped) (hs : Served c c')
    (hregs : c'.regs = (c.enterTrap .windowOverflow).regs) (r : Reg) : c'.get r = c.get r := by
  rw [get_eq_peek (hs.shaped_overflow h hregs), hs.cwp, get_eq_peek h]
  exact peek_overflow h hs hregs h.cwp_lt fun he => absurd he (cwp_ne_below h)

theorem Served.shaped_underflow (hs : Served c c') (h : c.Shaped) {l : List Access}
    (hregs : c'.regs = (c.filled l).regs) : c'.Shaped := by
  refine hs.toResumes.shaped h hs.cwp ?_
  rw [hregs, (h.filled l).size, h.size, filled_windows]

/-- After an underflow a window shows what the filled file shows. -/
theorem peek_underflow (hs : Served c c') {l : List Access} (hregs : c'.regs = (c.filled l).regs)
    (w : Nat) (r : Reg) : c'.peek w r = (c.filled l).peek w r :=
  peek_congr (hs.config.trans (resumes_filled c l).config.symm) hregs w r

theorem get_underflow (h : c.Shaped) (hs : Served c c') {l : List Access}
    (hregs : c'.regs = (c.filled l).regs) (r : Reg) : c'.get r = (c.filled l).peek c.cwp r := by
  rw [get_eq_peek (hs.shaped_underflow h hregs), hs.cwp, peek_underflow hs hregs]

/-- With three windows the filled one is out of sight. -/
theorem peek_filled_three (h : c.Shaped) (h3 : 3 ≤ c.windows) (l : List Access) (r : Reg) :
    (c.filled l).peek c.cwp r = c.get r := by
  rw [get_eq_peek h]
  refine peek_filled h h.cwp_lt (fun he => absurd he (cwp_ne_below h)) (fun r' hr' => ?_) l
  rw [← up_one h.cwp_lt]
  exact (place_up h.cwp_lt (by omega) (by omega) hr').symm

end Cpu
end SparcIU
