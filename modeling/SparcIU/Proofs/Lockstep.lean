/-
# One instruction at a time

A step of a register instruction fetches it, carries it out without the bus, and
ends in its outcome (`hold_step`). If it raises no trap it completes at once, and
the coupling of windows and frames is kept (`Along.stay`, `Along.save`,
`Along.restore`). A save from a full ring and a restore to a caller on the stack
trap, and after the service they find a valid window (`Along.overflow`,
`Along.underflow`). So every instruction of a program that keeps to the
discipline of the stack completes after one trap at most (`Along.advances`).

Key definitions: `Ready`, `Completes`, `Disciplined`, `Along`, `SameProgram`,
`Advances`.
Key theorems: `hold_step`, `Along.overflow`, `Along.underflow`,
`Along.advances`.
-/
import SparcIU.Proofs.Coupling

namespace SparcIU

open Window

variable {σ : Type} {bus : Bus σ} {mem : WorkingMemory bus}
variable {c c' : Cpu} {s s' : σ} {m m' : Frames} {r : Nat} {pc : Word}

/-! ### Steps that complete and steps that trap -/

/-- The processor is about to execute the instruction at `pc`, and after it the
next one in the row. -/
structure Ready (c : Cpu) (pc : Word) : Prop where
  here : c.pc = pc
  next : c.npc = pc + 4
  trap : c.pendingTrap = none
  annul : c.pendingAnnul = false
  target : c.branchTarget = none
  mode : c.config.trapMode = .internal

/-- An instruction that transfers no control and raises no trap. -/
structure Goes (c c' : Cpu) : Prop where
  config : c'.config = c.config
  pc : c'.pc = c.pc
  npc : c'.npc = c.npc
  trap : c'.pendingTrap = c.pendingTrap
  annul : c'.pendingAnnul = c.pendingAnnul
  target : c'.branchTarget = c.branchTarget

theorem Ready.clearZero (h : Ready c pc) : Ready c.clearZero pc :=
  ⟨h.here, h.next, h.trap, h.annul, h.target, h.mode⟩

theorem Ready.advance (h : Ready c pc) (hg : Goes c c') : Ready c'.advance (pc + 4) := by
  refine ⟨hg.npc.trans h.next, ?_, hg.trap.trans h.trap, hg.annul.trans h.annul, rfl, ?_⟩
  · show c'.branchTarget.getD (c'.npc + 4) = _
    rw [hg.target, h.target, hg.npc, h.next]
    rfl
  · show c'.config.trapMode = _
    rw [hg.config, h.mode]

theorem Ready.outcome (h : Ready c pc) (hg : Goes c c') : c'.outcome = (.completed, c'.advance) := by
  unfold Cpu.outcome
  rw [hg.trap, h.trap]

theorem goes_operate (c : Cpu) {i : Instr} (hi : i.stays) : Goes c (c.operate i) := by
  have h := Cpu.writes_operate c hi
  exact ⟨h.config, h.pc, h.npc, h.trap, h.annul, h.target⟩

theorem goes_moveWindow {t : Turn} (hvalid : ¬ c.isInvalid (c.neighbour t)) (rs1 : Reg) (src : Operand)
    (rd : Reg) : Goes c (c.moveWindow t rs1 src rd) := by
  rw [Cpu.moveWindow_of_clear hvalid]
  constructor
  all_goals simp [Cpu.setCwp]

/-- An instruction of the register file is carried out without the bus. -/
theorem execute_framed {i : Instr} (hi : i.framed) : c.execute i = .done (c.operate i) := by
  cases i with
  | load | store => cases hi
  | _ => rfl

theorem implemented_of_framed {i : Instr} (hi : i.framed) : i.implemented := by
  cases i with
  | load | unknown => cases hi
  | _ => rfl

/-- The end of an instruction is heard, and changes no memory. -/
theorem hold_retire (mem : WorkingMemory bus) (c : Cpu) (s : σ) :
    ∃ s', c.retire.hold bus s = (c.outcome, s') ∧ mem.view s' = mem.view s := by
  unfold Cpu.retire Cpu.outcome
  cases c.pendingTrap with
  | none => exact ⟨s, rfl, rfl⟩
  | some t => exact ⟨_, rfl, mem.hear_ok _ s⟩

theorem take_framed (h : Ready c pc) {word : Word} (hi : (Instr.ofWord word).framed) :
    c.take word = .remark (.executes c.pc (Instr.ofWord word))
      (c.clearZero.operate (Instr.ofWord word)).retire := by
  have hannul : ¬ c.clearZero.pendingAnnul = true := by
    rw [show c.clearZero.pendingAnnul = false from h.annul]; decide
  unfold Cpu.take Cpu.dispatch
  simp only
  rw [if_neg hannul, if_pos (implemented_of_framed hi), execute_framed hi]
  rfl

/-- A step fetches the word and carries it out. -/
theorem hold_step (h : Ready c pc) (hpc : pc.isAligned) {word : Word}
    (hword : mem.view s pc = some word) (hi : (Instr.ofWord word).framed) :
    ∃ s', c.step.hold bus s = ((c.clearZero.operate (Instr.ofWord word)).outcome, s') ∧
      mem.view s' = mem.view s := by
  obtain ⟨hok, hfetched⟩ := mem.read_ok hword
  have hread : bus.read c.pc s = (.ok word, (bus.read pc s).2) := by
    rw [h.here, ← hok]
  obtain ⟨s', hretire, hview⟩ := hold_retire mem (c.clearZero.operate (Instr.ofWord word))
    (bus.hear (.executes c.pc (Instr.ofWord word)) (bus.read pc s).2)
  refine ⟨s', ?_, by rw [hview, mem.hear_ok, hfetched]⟩
  unfold Cpu.step
  rw [if_pos (h.here ▸ hpc), h.trap]
  simp only [Dialogue.hold, hread, take_framed h hi, hretire]

/-! ### One instruction -/

/-- An instruction completes in a run that has come to round `n`: at once, or
after a window trap that the processor serves. -/
inductive Completes (bus : Bus σ) (n : Nat) (c : Cpu) (s : σ) : Nat → Cpu → σ → Prop where
  | atOnce {c' : Cpu} {s' : σ} (hstep : c.step.hold bus s = ((.completed, c'), s')) :
    Completes bus n c s (n + 1) c' s'
  | served {t : Trap} {c₁ c₂ c' : Cpu} {s₁ s₂ s' : σ}
    (hstep : c.step.hold bus s = ((.trapped t, c₁), s₁))
    (hkind : t.kind = .windowOverflow ∨ t.kind = .windowUnderflow)
    (hserved : c₁.deliver.hold bus s₁ = ((none, c₂), s₂))
    (hretry : c₂.step.hold bus (bus.hear (.delivered n t) s₂) = ((.completed, c'), s')) :
    Completes bus n c s (n + 2) c' s'

/-- What a program of `len` words at `base` promises before an instruction: the
callee's frame pointer is what it was, a caller that saves has an area of its
own, and a restore has a caller to go back to. -/
structure Disciplined (mem : WorkingMemory bus) (s : σ) (base : Word) (len : Nat) (m : Frames)
    (i : Instr) : Prop where
  linked : m.Linked
  saves : ∀ rs1 src rd, i = .save rs1 src rd →
    Fits mem s base len (m.get Reg.sp) ∧ ∀ a ∈ m.callers, AreasApart (m.get Reg.sp) a.sp
  restores : ∀ rs1 src rd, i = .restore rs1 src rd → m.callers ≠ []

theorem Stacked.push {base : Word} {len : Nat} (h : Stacked mem s base len m.callers)
    (hlinked : m.Linked) (hfits : Fits mem s base len (m.get Reg.sp))
    (hapart : ∀ a ∈ m.callers, AreasApart (m.get Reg.sp) a.sp) :
    Stacked mem s base len (⟨m.get Reg.sp, m.get⟩ :: m.callers) := by
  refine ⟨fun a ha => ?_, List.pairwise_cons.mpr ⟨hapart, h.apart⟩, fun j a b ha hb => ?_⟩
  · rcases List.mem_cons.mp ha with rfl | ha
    · exact hfits
    · exact h.fits a ha
  · cases j with
    | zero =>
      obtain rfl := Option.some.inj ha
      exact hlinked b (by rw [List.head?_eq_getElem?]; exact hb)
    | succ j => exact h.linked j a b ha hb

theorem Stacked.pop {base : Word} {len : Nat} {a : Caller} {rest : List Caller}
    (h : Stacked mem s base len (a :: rest)) : Stacked mem s base len rest :=
  ⟨fun b hb => h.fits b (List.mem_cons_of_mem a hb), h.apart.of_cons,
    fun j b b' hb hb' => h.linked (j + 1) b b' hb hb'⟩

theorem Stacked.of_sameExtent {base : Word} {len : Nat} {callers : List Caller}
    (h : Stacked mem s base len callers) (hext : mem.SameExtent s s') :
    Stacked mem s' base len callers :=
  ⟨fun a ha => ⟨(h.fits a ha).nonzero, (h.fits a ha).area.of_sameExtent hext, (h.fits a ha).off⟩,
    h.apart, h.linked⟩

/-- All that holds between two instructions of a program. -/
structure Along (mem : WorkingMemory bus) (base : Word) (len : Nat) (c : Cpu) (s : σ) (m : Frames)
    (r : Nat) (pc : Word) : Prop where
  three : 3 ≤ c.windows
  ready : Ready c pc
  coupled : Coupled mem c s m r
  stacked : Stacked mem s base len m.callers

/-- The device has its memory where it had it, and the program is what it was. -/
structure SameProgram (mem : WorkingMemory bus) (base : Word) (len : Nat) (s s' : σ) : Prop where
  extent : mem.SameExtent s s'
  code : ∀ i < len, mem.view s' (slot base i) = mem.view s (slot base i)

theorem SameProgram.of_view {base : Word} {len : Nat} (h : mem.view s' = mem.view s) :
    SameProgram mem base len s s' :=
  ⟨fun a => by rw [h], fun i _ => by rw [h]⟩

theorem SameProgram.trans {base : Word} {len : Nat} {s'' : σ} (h : SameProgram mem base len s s')
    (h' : SameProgram mem base len s' s'') : SameProgram mem base len s s'' :=
  ⟨fun a => (h'.extent a).trans (h.extent a), fun i hi => (h'.code i hi).trans (h.code i hi)⟩

section Along

variable {base : Word} {len : Nat} {word : Word}

/-- An instruction that raises no trap completes at once. -/
theorem Along.goes (h : Along mem base len c s m r pc) (hpc : pc.isAligned)
    (hword : mem.view s pc = some word) (hi : (Instr.ofWord word).framed)
    (hgo : Goes c.clearZero (c.clearZero.operate (Instr.ofWord word))) {r' : Nat}
    (hcoupled : Coupled mem (c.clearZero.operate (Instr.ofWord word)) s m' r')
    (hstacked : Stacked mem s base len m'.callers) :
    ∃ c' s', c.step.hold bus s = ((.completed, c'), s') ∧ Along mem base len c' s' m' r' (pc + 4) ∧
      SameProgram mem base len s s' := by
  obtain ⟨s', hstep, hview⟩ := hold_step h.ready hpc hword hi
  rw [h.ready.clearZero.outcome hgo] at hstep
  refine ⟨_, s', hstep, ⟨?_, h.ready.clearZero.advance hgo, hcoupled.advance hview,
    hstacked.of_sameExtent fun a => by rw [hview]⟩, .of_view hview⟩
  show 3 ≤ (c.clearZero.operate (Instr.ofWord word)).windows
  rw [Cpu.windows, hgo.config]
  exact h.three

theorem Ready.served {t : TrapKind} {c₂ : Cpu} (h : Ready c pc)
    (hs : Cpu.Served (c.clearZero.raise t) c₂) : Ready c₂ pc :=
  ⟨hs.pc.trans h.here, hs.npc.trans h.next, hs.trap, hs.annul.trans h.annul,
    hs.target.trans h.target, by rw [hs.config]; exact h.mode⟩

/-- An instruction that raises a trap has done nothing to the coupling. -/
theorem Along.traps (h : Along mem base len c s m r pc) (hpc : pc.isAligned)
    (hword : mem.view s pc = some word) (hi : (Instr.ofWord word).framed) {t : TrapKind}
    (hraise : c.clearZero.operate (Instr.ofWord word) = c.clearZero.raise t) :
    ∃ s₁, c.step.hold bus s = ((.trapped (c.clearZero.report t), c.clearZero.raise t), s₁) ∧
      Coupled mem (c.clearZero.raise t) s₁ m r ∧ SameProgram mem base len s s₁ := by
  obtain ⟨s₁, hstep, hview⟩ := hold_step h.ready hpc hword hi
  rw [hraise] at hstep
  have hcoupled := (h.coupled.clearZero.raise t).of_view hview
  exact ⟨s₁, hstep, hcoupled, .of_view hview⟩

/-- After the service of a trap the program goes on where it was. -/
theorem Along.resumes (h : Along mem base len c s m r pc) {t : TrapKind} {c₂ : Cpu} {s₂ : σ}
    {r₂ : Nat} (hserved : Cpu.Served (c.clearZero.raise t) c₂) (hcoupled : Coupled mem c₂ s₂ m r₂)
    (hsame : SameProgram mem base len s s₂) :
    c₂.windows = c.windows ∧ Along mem base len c₂ s₂ m r₂ pc := by
  have hwin : c₂.windows = c.windows := by
    rw [Cpu.windows, hserved.config]
    rfl
  have hthree : 3 ≤ c₂.windows := hwin ▸ h.three
  exact ⟨hwin, hthree, h.ready.served hserved, hcoupled, h.stacked.of_sameExtent hsame.extent⟩

/-- A save from a full ring traps, and the service makes room. -/
theorem Along.overflow (h : Along mem base len c s m (r + 1) pc) (hfull : r + 3 = c.windows)
    (hpc : pc.isAligned) (hword : mem.view s pc = some word) {rs1 : Reg} {src : Operand} {rd : Reg}
    (hi : Instr.ofWord word = .save rs1 src rd) (hlinked : m.Linked) :
    ∃ t c₁ s₁ c₂ s₂, c.step.hold bus s = ((.trapped t, c₁), s₁) ∧ t.kind = .windowOverflow ∧
      c₁.deliver.hold bus s₁ = ((none, c₂), s₂) ∧ c₂.windows = c.windows ∧
      Along mem base len c₂ s₂ m r pc ∧ SameProgram mem base len s s₂ := by
  have hraise : c.clearZero.operate (Instr.ofWord word) = c.clearZero.raise .windowOverflow := by
    rw [hi]
    exact Cpu.moveWindow_of_invalid (h.coupled.clearZero.down_invalid_iff.mpr hfull) rs1 src rd
  obtain ⟨s₁, hstep, hcoupled, hsame⟩ := h.traps hpc hword (by rw [hi]; rfl) hraise
  obtain ⟨c₂, s₂, hdeliver, hserved, hcoupled₂, hextent, hcode⟩ :=
    hcoupled.overflow hfull h.ready.mode rfl (h.stacked.of_sameExtent hsame.extent) hlinked
  have hsame₂ := hsame.trans ⟨hextent, hcode⟩
  obtain ⟨hwin, halong⟩ := h.resumes hserved hcoupled₂ hsame₂
  exact ⟨_, _, s₁, c₂, s₂, hstep, rfl, hdeliver, hwin, halong, hsame₂⟩

/-- A restore to a spilled caller traps, and the service brings it back. -/
theorem Along.underflow (h : Along mem base len c s m 0 pc) (hpc : pc.isAligned)
    (hword : mem.view s pc = some word) {rs1 : Reg} {src : Operand} {rd : Reg}
    (hi : Instr.ofWord word = .restore rs1 src rd) (hlinked : m.Linked) (hne : m.callers ≠ []) :
    ∃ t c₁ s₁ c₂ s₂, c.step.hold bus s = ((.trapped t, c₁), s₁) ∧ t.kind = .windowUnderflow ∧
      c₁.deliver.hold bus s₁ = ((none, c₂), s₂) ∧ Along mem base len c₂ s₂ m 1 pc ∧
      SameProgram mem base len s s₂ := by
  have hraise : c.clearZero.operate (Instr.ofWord word) = c.clearZero.raise .windowUnderflow := by
    rw [hi]
    exact Cpu.moveWindow_of_invalid (h.coupled.clearZero.up_invalid_iff.mpr rfl) rs1 src rd
  obtain ⟨s₁, hstep, hcoupled, hsame⟩ := h.traps hpc hword (by rw [hi]; rfl) hraise
  obtain ⟨c₂, s₂, hdeliver, hserved, hcoupled₂, hview₂⟩ :=
    hcoupled.underflow h.three h.ready.mode rfl (h.stacked.of_sameExtent hsame.extent) hlinked hne
  have hsame₂ := hsame.trans (.of_view hview₂)
  obtain ⟨-, halong⟩ := h.resumes hserved hcoupled₂ hsame₂
  exact ⟨_, _, s₁, c₂, s₂, hstep, rfl, hdeliver, halong, hsame₂⟩

theorem Along.of_view (h : Along mem base len c s m r pc) (hview : mem.view s' = mem.view s) :
    Along mem base len c s' m r pc :=
  ⟨h.three, h.ready, h.coupled.of_view hview, h.stacked.of_sameExtent fun a => by rw [hview]⟩

/-- An instruction within a frame. -/
theorem Along.stay (h : Along mem base len c s m r pc) (hpc : pc.isAligned)
    (hword : mem.view s pc = some word) (hi : (Instr.ofWord word).stays)
    (hframed : (Instr.ofWord word).framed) (fresh : Reg → Word) :
    ∃ c' s' m', c.step.hold bus s = ((.completed, c'), s') ∧
      m.perform fresh (Instr.ofWord word) = some m' ∧ Along mem base len c' s' m' r (pc + 4) ∧
      SameProgram mem base len s s' := by
  obtain ⟨m', hperform, hcallers, hcoupled⟩ := h.coupled.clearZero.stay hi fresh
  obtain ⟨c', s', hstep, halong, hsame⟩ := h.goes hpc hword hframed (goes_operate _ hi) hcoupled
    (hcallers ▸ h.stacked)
  exact ⟨c', s', m', hstep, hperform, halong, hsame⟩

/-- A save into a valid window. -/
theorem Along.save (h : Along mem base len c s m r pc) (hroom : r + 2 ≠ c.windows)
    (hpc : pc.isAligned) (hword : mem.view s pc = some word) {rs1 : Reg} {src : Operand} {rd : Reg}
    (hi : Instr.ofWord word = .save rs1 src rd)
    (hdis : Disciplined mem s base len m (Instr.ofWord word)) :
    ∃ c' s' fresh m', c.step.hold bus s = ((.completed, c'), s') ∧
      m.perform fresh (Instr.ofWord word) = some m' ∧ Along mem base len c' s' m' (r + 1) (pc + 4) ∧
      SameProgram mem base len s s' := by
  have hclear := h.coupled.clearZero
  have hvalid : ¬ c.clearZero.isInvalid (c.clearZero.neighbour .down) := fun hinv =>
    hroom (hclear.down_invalid_iff.mp hinv)
  obtain ⟨hfits, hapart⟩ := hdis.saves rs1 src rd hi
  obtain ⟨fresh, m', hperform, hcallers, hcoupled⟩ := hclear.save hroom rs1 src rd
  rw [← hi] at hperform hcoupled
  obtain ⟨c', s', hstep, halong, hsame⟩ := h.goes hpc hword (by rw [hi]; rfl)
    (by rw [hi]; exact goes_moveWindow hvalid rs1 src rd) hcoupled
    (hcallers ▸ h.stacked.push hdis.linked hfits hapart)
  exact ⟨c', s', fresh, m', hstep, hperform, halong, hsame⟩

/-- A restore from a valid window. -/
theorem Along.restore (h : Along mem base len c s m (r + 1) pc)
    (hpc : pc.isAligned) (hword : mem.view s pc = some word) {rs1 : Reg} {src : Operand} {rd : Reg}
    (hi : Instr.ofWord word = .restore rs1 src rd) (hne : m.callers ≠ []) (fresh : Reg → Word) :
    ∃ c' s' m', c.step.hold bus s = ((.completed, c'), s') ∧
      m.perform fresh (Instr.ofWord word) = some m' ∧ Along mem base len c' s' m' r (pc + 4) ∧
      SameProgram mem base len s s' := by
  have hclear := h.coupled.clearZero
  have hvalid : ¬ c.clearZero.isInvalid (c.clearZero.neighbour .up) := fun hinv =>
    absurd (hclear.up_invalid_iff.mp hinv) (Nat.succ_ne_zero r)
  obtain ⟨a, rest, hcons⟩ := List.exists_cons_of_ne_nil hne
  obtain ⟨m', hperform, hcallers, hcoupled⟩ := hclear.restore hcons rs1 src rd fresh
  rw [← hi] at hperform hcoupled
  have hstacked : Stacked mem s base len m'.callers := by
    rw [hcallers]
    exact Stacked.pop (hcons ▸ h.stacked)
  obtain ⟨c', s', hstep, halong, hsame⟩ := h.goes hpc hword (by rw [hi]; rfl)
    (by rw [hi]; exact goes_moveWindow hvalid rs1 src rd) hcoupled hstacked
  exact ⟨c', s', m', hstep, hperform, halong, hsame⟩

theorem Disciplined.of_sameExtent {i : Instr} (h : Disciplined mem s base len m i)
    (hext : mem.SameExtent s s') : Disciplined mem s' base len m i := by
  refine ⟨h.linked, fun rs1 src rd hi => ?_, h.restores⟩
  obtain ⟨hfits, hapart⟩ := h.saves rs1 src rd hi
  exact ⟨⟨hfits.nonzero, hfits.area.of_sameExtent hext, hfits.off⟩, hapart⟩

/-- The instruction at `pc` completes, the reference machine performs it too, and
all that held before it holds after it. -/
def Advances (mem : WorkingMemory bus) (base : Word) (len n : Nat) (c : Cpu) (s : σ) (m : Frames)
    (i : Instr) (pc : Word) : Prop :=
  ∃ n' c' s' fresh m' r', Completes bus n c s n' c' s' ∧ m.perform fresh i = some m' ∧
    Along mem base len c' s' m' r' (pc + 4) ∧ SameProgram mem base len s s'

/-- A save completes, after an overflow if the ring is full. -/
theorem Along.advances_save {k : Nat} (h : Along mem base len c s m r (slot base k)) (hk : k < len)
    (hpc : (slot base k).isAligned) (hword : mem.view s (slot base k) = some word) {rs1 : Reg}
    {src : Operand} {rd : Reg} (hi : Instr.ofWord word = .save rs1 src rd)
    (hdis : Disciplined mem s base len m (Instr.ofWord word)) (n : Nat) :
    Advances mem base len n c s m (Instr.ofWord word) (slot base k) := by
  by_cases hfull : r + 2 = c.windows
  · have hthree := h.three
    obtain ⟨r, rfl⟩ : ∃ r', r = r' + 1 := Nat.exists_eq_succ_of_ne_zero (by omega)
    obtain ⟨t, c₁, s₁, c₂, s₂, hstep, hkind, hserved, hwin, halong, hsame⟩ :=
      h.overflow (by omega) hpc hword hi hdis.linked
    have hheard := mem.hear_ok (.delivered n t) s₂
    have hsame := hsame.trans (.of_view hheard)
    have hword' := (hsame.code k hk).trans hword
    have hdis' := hdis.of_sameExtent hsame.extent
    obtain ⟨c', s', fresh, m', hretry, hperform, halong', hsame'⟩ :=
      (halong.of_view hheard).save (by omega) hpc hword' hi hdis'
    have hcompletes := Completes.served hstep (.inl hkind) hserved hretry
    exact ⟨_, c', s', fresh, m', _, hcompletes, hperform, halong', hsame.trans hsame'⟩
  · obtain ⟨c', s', fresh, m', hstep, hperform, halong, hsame⟩ := h.save hfull hpc hword hi hdis
    exact ⟨_, c', s', fresh, m', _, .atOnce hstep, hperform, halong, hsame⟩

/-- A restore completes, after an underflow if the caller was spilled. -/
theorem Along.advances_restore {k : Nat} (h : Along mem base len c s m r (slot base k)) (hk : k < len)
    (hpc : (slot base k).isAligned) (hword : mem.view s (slot base k) = some word) {rs1 : Reg}
    {src : Operand} {rd : Reg} (hi : Instr.ofWord word = .restore rs1 src rd)
    (hdis : Disciplined mem s base len m (Instr.ofWord word)) (n : Nat) :
    Advances mem base len n c s m (Instr.ofWord word) (slot base k) := by
  have hne := hdis.restores rs1 src rd hi
  cases r with
  | zero =>
    obtain ⟨t, c₁, s₁, c₂, s₂, hstep, hkind, hserved, halong, hsame⟩ :=
      h.underflow hpc hword hi hdis.linked hne
    have hheard := mem.hear_ok (.delivered n t) s₂
    have hsame := hsame.trans (.of_view hheard)
    have hword' := (hsame.code k hk).trans hword
    obtain ⟨c', s', m', hretry, hperform, halong', hsame'⟩ :=
      (halong.of_view hheard).restore hpc hword' hi hne fun _ => 0
    have hcompletes := Completes.served hstep (.inr hkind) hserved hretry
    exact ⟨_, c', s', _, m', _, hcompletes, hperform, halong', hsame.trans hsame'⟩
  | succ r =>
    obtain ⟨c', s', m', hstep, hperform, halong, hsame⟩ := h.restore hpc hword hi hne fun _ => 0
    exact ⟨_, c', s', _, m', r, .atOnce hstep, hperform, halong, hsame⟩

/-- **An instruction completes**, and the coupling is kept. -/
theorem Along.advances {k : Nat} (h : Along mem base len c s m r (slot base k)) (hk : k < len)
    (hbase : base.isAligned) (hword : mem.view s (slot base k) = some word)
    (hi : (Instr.ofWord word).framed) (hdis : Disciplined mem s base len m (Instr.ofWord word))
    (n : Nat) : Advances mem base len n c s m (Instr.ofWord word) (slot base k) := by
  have hpc := isAligned_slot hbase k
  by_cases hstays : (Instr.ofWord word).stays
  · obtain ⟨c', s', m', hstep, hperform, halong, hsame⟩ := h.stay hpc hword hstays hi fun _ => 0
    exact ⟨_, c', s', _, m', r, .atOnce hstep, hperform, halong, hsame⟩
  · cases hinstr : Instr.ofWord word with
    | save rs1 src rd => exact hinstr ▸ h.advances_save hk hpc hword hinstr hdis n
    | restore rs1 src rd => exact hinstr ▸ h.advances_restore hk hpc hword hinstr hdis n
    | _ =>
      rw [hinstr] at hi hstays
      exact absurd hi hstays

end Along

end SparcIU
