/-
# What a program in user mode can see and change

In user mode the mode before the last trap, the trap enable bit, the trap base
register and the bits of the state register without a function can be neither
read nor written, and the registers outside the current window can be reached by
a save or a restore only. So two processors in user mode that agree on everything
else are told apart by no word: with the same bus they make the same accesses,
come to the same result and agree afterwards, and what the program has no access
to stays in each of them what it was (`user_confined`). Both are proved of one
step, along the two dialogues side by side (`Dialogue.Twins`), and carried over to
rows of steps.

Key definitions: `Dialogue.Twins`, `Cpu.Alike`, `Cpu.SameForUser`,
`Cpu.Confined`.
Key theorems: `Dialogue.Twins.hold`, `Cpu.Alike.operate`, `Cpu.twins_execute`,
`Cpu.confined_step`, `user_confined`.
-/
import SparcIU.Proofs.Footprint
import SparcIU.Proofs.PendingTrap

namespace SparcIU

namespace Dialogue

variable {α β γ δ : Type}

/-- Two dialogues that ask for the same and say the same, whatever is answered,
and end in results that `R` relates. -/
inductive Twins (R : α → β → Prop) : Dialogue α → Dialogue β → Prop where
  | done {a : α} {b : β} (h : R a b) : Twins R (.done a) (.done b)
  | read {addr : Word} {next : Except Fault Word → Dialogue α}
      {next' : Except Fault Word → Dialogue β} (h : ∀ answer, Twins R (next answer) (next' answer)) :
      Twins R (.read addr next) (.read addr next')
  | write {addr v : Word} {next : Except Fault Unit → Dialogue α}
      {next' : Except Fault Unit → Dialogue β} (h : ∀ answer, Twins R (next answer) (next' answer)) :
      Twins R (.write addr v next) (.write addr v next')
  | remark {r : Remark} {d : Dialogue α} {e : Dialogue β} (h : Twins R d e) :
      Twins R (.remark r d) (.remark r e)

/-- With one bus, twins have one transcript and leave one device. -/
theorem Twins.hold {R : α → β → Prop} {d : Dialogue α} {e : Dialogue β} (h : Twins R d e)
    {σ : Type} (bus : Bus σ) (s : σ) : e.transcript bus s = d.transcript bus s ∧
      (e.hold bus s).2 = (d.hold bus s).2 ∧ R (d.hold bus s).1 (e.hold bus s).1 := by
  induction h generalizing s with
  | done h => exact ⟨rfl, rfl, h⟩
  | read h ih =>
    obtain ⟨hl, hs, hr⟩ := ih _ _
    exact ⟨congrArg _ hl, hs, hr⟩
  | write h ih =>
    obtain ⟨hl, hs, hr⟩ := ih _ _
    exact ⟨congrArg _ hl, hs, hr⟩
  | remark h ih => exact ih _

theorem Twins.bind {R : α → β → Prop} {S : γ → δ → Prop} {d : Dialogue α} {e : Dialogue β}
    {f : α → Dialogue γ} {g : β → Dialogue δ} (h : Twins R d e)
    (hfg : ∀ a b, R a b → Twins S (f a) (g b)) : Twins S (d.bind f) (e.bind g) := by
  induction h with
  | done h => exact hfg _ _ h
  | read h ih => exact .read ih
  | write h ih => exact .write ih
  | remark h ih => exact .remark ih

end Dialogue

namespace Cpu

variable {c d c' d' : Cpu} {V : Nat → Prop}

/-! ### Processors that a program cannot tell apart -/

/-- Two processors in user mode that agree on all that a program can reach, but
for the file. -/
structure Matched (c d : Cpu) : Prop where
  user : c.psr.s = false
  user' : d.psr.s = false
  pc : d.pc = c.pc
  npc : d.npc = c.npc
  icc : d.psr.icc = c.psr.icc
  cwp : d.psr.cwp = c.psr.cwp
  wim : d.wim = c.wim
  y : d.y = c.y
  pendingTrap : d.pendingTrap = c.pendingTrap
  pendingAnnul : d.pendingAnnul = c.pendingAnnul
  branchTarget : d.branchTarget = c.branchTarget
  config : d.config = c.config
  size : d.regs.size = c.regs.size

/-- They agree also on the file at the places `V`, among them those of the current
window. -/
structure Alike (V : Nat → Prop) (c d : Cpu) : Prop extends Matched c d where
  file : ∀ i, V i → d.regs[i]? = c.regs[i]?
  covers : ∀ r : Reg, r ≠ 0 → V (c.index r)

theorem index_ne_zero (c : Cpu) {r : Reg} (hr : r ≠ 0) : c.index r ≠ 0 := by
  have hpos : r.val ≠ 0 := fun h0 => hr (Fin.ext h0)
  unfold index
  simp only
  split
  · exact hpos
  · split <;> omega

/-- In user mode what is left to the supervisor is refused. -/
theorem supervised_user (hu : c.psr.s = false) (act : Cpu → Cpu) :
    c.supervised act = c.raise .privilegedInstruction := if_neg (Bool.eq_false_iff.mp hu)

namespace Alike

theorem index (h : Alike V c d) (r : Reg) : d.index r = c.index r := index_congr h.cwp h.size r

theorem get (h : Alike V c d) (r : Reg) : d.get r = c.get r := by
  unfold Cpu.get
  split
  · rfl
  · rename_i hr
    rw [Array.getD_eq_getD_getElem?, Array.getD_eq_getD_getElem?, h.index, h.file _ (h.covers r hr)]

theorem operand (h : Alike V c d) (src : Operand) : d.operand src = c.operand src := by
  cases src with
  | reg r => exact h.get r
  | imm v => rfl

theorem sum (h : Alike V c d) (rs1 : Reg) (src : Operand) : d.sum rs1 src = c.sum rs1 src := by
  unfold Cpu.sum
  rw [h.get, h.operand]

theorem neighbour (h : Alike V c d) (t : Turn) : d.neighbour t = c.neighbour t := by
  unfold Cpu.neighbour Cpu.cwp
  rw [h.cwp, h.config]

theorem isInvalid (h : Alike V c d) (w : Nat) : d.isInvalid w = c.isInvalid w := by
  unfold Cpu.isInvalid
  rw [h.wim]

theorem report (h : Alike V c d) (t : TrapKind) : d.report t = c.report t := by
  unfold Cpu.report
  rw [h.pc, h.npc]

theorem raise (h : Alike V c d) (t : TrapKind) : Alike V (c.raise t) (d.raise t) :=
  { h with pendingTrap := rfl }

theorem transfer (h : Alike V c d) (target : Word) : Alike V (c.transfer target) (d.transfer target) :=
  { h with branchTarget := rfl }

theorem setIcc (h : Alike V c d) (f : Icc) : Alike V (c.setIcc f) (d.setIcc f) :=
  { h with icc := rfl }

theorem setY (h : Alike V c d) (v : Word) : Alike V { c with y := v } { d with y := v } :=
  { h with y := rfl }

theorem setAnnul (h : Alike V c d) (b : Bool) :
    Alike V { c with pendingAnnul := b } { d with pendingAnnul := b } :=
  { h with pendingAnnul := rfl }

theorem set (h : Alike V c d) (r : Reg) (v : Word) : Alike V (c.set r v) (d.set r v) := by
  have hindex := h.index
  obtain ⟨⟨user, user', pc, npc, icc, cwp, wim, y, trap, annul, target, config, size⟩, file, covers⟩ := h
  refine ⟨?_, fun i hi => ?_, fun r' hr' => ?_⟩
  · constructor
    all_goals simpa
  · by_cases hr : r = 0
    · rw [hr, set_zero, set_zero]
      exact file i hi
    · rw [regs_set c v hr, regs_set d v hr, hindex, Array.getElem?_setIfInBounds,
        Array.getElem?_setIfInBounds, file i hi, size]
  · rw [index_congr (congrArg Psr.cwp (set_psr c r v)) (size_set c r v)]
    exact covers r' hr'

theorem finish (h : Alike V c d) (rd : Reg) (v : Word) (setsIcc : Bool) (f : Icc) :
    Alike V (c.finish rd v setsIcc f) (d.finish rd v setsIcc f) := by
  have hset := h.set rd v
  unfold Cpu.finish
  cases setsIcc with
  | false => exact hset
  | true => exact hset.setIcc f

theorem clearZero (h : Alike V c d) : Alike V c.clearZero d.clearZero := by
  have hsize : ∀ c : Cpu, c.clearZero.regs.size = c.regs.size := fun _ => Array.size_setIfInBounds
  have hcwp : c.clearZero.psr.cwp = c.psr.cwp := rfl
  refine { h with size := ?_, file := fun i hi => ?_, covers := fun r hr => ?_ }
  · rw [hsize, hsize, h.size]
  · simp only [Cpu.clearZero, Array.getElem?_setIfInBounds, h.file i hi, h.size]
  · rw [index_congr hcwp (hsize c)]
    exact h.covers r hr

theorem advance (h : Alike V c d) : Alike V c.advance d.advance := by
  refine { h with pc := h.npc, npc := ?_, branchTarget := rfl }
  show d.branchTarget.getD (d.npc + 4) = c.branchTarget.getD (c.npc + 4)
  rw [h.branchTarget, h.npc]

/-- Another window is entered; all of the file has to agree for that. -/
theorem setCwp (h : Alike V c d) (hV : ∀ i, i ≠ 0 → V i) (w : Nat) :
    Alike V (c.setCwp w) (d.setCwp w) :=
  { h with cwp := rfl, covers := fun _ hr => hV _ (index_ne_zero _ hr) }

/-! ### Instructions -/

theorem supervised (h : Alike V c d) (act : Cpu → Cpu) :
    Alike V (c.supervised act) (d.supervised act) := by
  rw [supervised_user h.user, supervised_user h.user']
  exact h.raise _

theorem branch (h : Alike V c d) (cond : Cond) (annul : Bool) (offset : Word) :
    Alike V (c.branch cond annul offset) (d.branch cond annul offset) := by
  unfold Cpu.branch
  simp only [h.icc, h.pc]
  split <;> split
  · exact (h.transfer _).setAnnul true
  · exact h.setAnnul true
  · exact h.transfer _
  · exact h

theorem link (h : Alike V c d) (rd : Reg) (target : Word) : Alike V (c.link rd target) (d.link rd target) := by
  unfold Cpu.link
  rw [h.pc]
  exact (h.set rd _).transfer target

/-- In user mode a return from a trap is refused: for the window, or for the
mode. -/
theorem returnFromTrap (h : Alike V c d) (rs1 : Reg) (src : Operand) :
    Alike V (c.returnFromTrap rs1 src) (d.returnFromTrap rs1 src) := by
  unfold Cpu.returnFromTrap
  simp only [h.neighbour, h.isInvalid, h.user, h.user', Bool.not_false, if_true]
  split
  · exact h.raise _
  · exact h.raise _

theorem moveWindow (h : Alike V c d) (hV : ∀ i, i ≠ 0 → V i) (t : Turn) (rs1 : Reg) (src : Operand)
    (rd : Reg) : Alike V (c.moveWindow t rs1 src rd) (d.moveWindow t rs1 src rd) := by
  unfold Cpu.moveWindow
  simp only [h.neighbour, h.isInvalid, h.sum]
  split
  · exact h.raise _
  · exact (h.setCwp hV _).set rd _

end Alike

end Cpu

/-- Saves and restores. -/
def Instr.turnsWindow : Instr → Bool
  | save .. | restore .. => true
  | _ => false

namespace Cpu

variable {c d c' d' : Cpu} {V : Nat → Prop}

/-- **Instructions keep processors alike**, if they do not use the bus. -/
theorem Alike.operate (h : Alike V c d) (i : Instr) (hV : i.turnsWindow → ∀ j, j ≠ 0 → V j) :
    Alike V (c.operate i) (d.operate i) := by
  cases i with
  | nop | load | store | unknown => exact h
  | sethi v rd => exact h.set rd v
  | branch cond annul offset => exact h.branch ..
  | call offset =>
    simp only [Cpu.operate, h.pc]
    exact h.link ..
  | jmpl rs1 src rd =>
    simp only [Cpu.operate, h.sum]
    exact h.link ..
  | alu op setsIcc rs1 src rd =>
    simp only [Cpu.operate, alu, h.get, h.operand]
    exact h.finish ..
  | shift op rs1 src rd =>
    simp only [Cpu.operate, h.get, h.operand]
    exact h.set ..
  | mul signed setsIcc rs1 src rd =>
    simp only [Cpu.operate, multiply, h.get, h.operand]
    exact (h.setY _).finish ..
  | mulscc rs1 src rd =>
    simp only [Cpu.operate, multiplyStep, h.icc, h.y, h.get, h.operand]
    exact (h.setY _).finish ..
  | div signed setsIcc rs1 src rd =>
    simp only [Cpu.operate, divide, h.y, h.get, h.operand]
    split
    · exact h.raise _
    · exact h.finish ..
  | readState | writeState =>
    simp only [Cpu.operate]
    exact h.supervised _
  | rett rs1 src => exact h.returnFromTrap ..
  | trapIf cond rs1 src =>
    simp only [Cpu.operate, trapIf, h.icc, h.sum]
    split
    · exact h.raise _
    · exact h
  | save rs1 src rd | restore rs1 src rd => exact h.moveWindow (hV rfl) ..

/-! ### Loads and stores -/

theorem twins_readWord (h : Alike V c d) (addr : Word) {next : Cpu → Word → Dialogue Cpu}
    (hnext : ∀ w, Dialogue.Twins (Alike V) (next c w) (next d w)) :
    Dialogue.Twins (Alike V) (c.readWord addr next) (d.readWord addr next) := by
  unfold readWord
  split
  · refine .read fun answer => ?_
    cases answer with
    | ok w => exact hnext w
    | error e => exact .remark (.done (h.raise _))
  · exact .remark (.done (h.raise _))

theorem twins_writeWord (h : Alike V c d) (addr v : Word) {next : Cpu → Dialogue Cpu}
    (hnext : Dialogue.Twins (Alike V) (next c) (next d)) :
    Dialogue.Twins (Alike V) (c.writeWord addr v next) (d.writeWord addr v next) := by
  unfold writeWord
  split
  · refine .write fun answer => ?_
    cases answer with
    | ok _ => exact hnext
    | error e => exact .remark (.done (h.raise _))
  · exact .remark (.done (h.raise _))

theorem twins_load (h : Alike V c d) (kind : LoadKind) (addr : Word) (rd : Reg) :
    Dialogue.Twins (Alike V) (c.load kind addr rd) (d.load kind addr rd) := by
  cases kind with
  | word | unsignedByte | unsignedHalf | signedByte | signedHalf =>
    simp only [load]
    exact twins_readWord h _ fun w => .done (h.set rd _)
  | double =>
    simp only [load]
    refine twins_readWord h _ fun high => ?_
    have hhigh := h.set (evenOf rd) high
    exact twins_readWord hhigh _ fun low => .done (hhigh.set (oddOf rd) low)
  | testAndSet =>
    simp only [load]
    refine twins_readWord h _ fun w => ?_
    have hset := h.set rd (w.byte addr.lane).toUInt32
    exact twins_writeWord hset _ _ (.done hset)

theorem twins_store (h : Alike V c d) (kind : StoreKind) (addr : Word) (rd : Reg) :
    Dialogue.Twins (Alike V) (c.store kind addr rd) (d.store kind addr rd) := by
  cases kind with
  | word =>
    simp only [store, h.get]
    exact twins_writeWord h _ _ (.done h)
  | byte | half =>
    simp only [store]
    refine twins_readWord h _ fun w => ?_
    simp only [h.get]
    exact twins_writeWord h _ _ (.done h)
  | double =>
    simp only [store, h.get]
    refine twins_writeWord h _ _ ?_
    simp only [h.get]
    exact twins_writeWord h _ _ (.done h)

/-- **Instructions keep processors alike**, and have one dialogue with the bus. -/
theorem twins_execute (h : Alike V c d) (i : Instr) (hV : i.turnsWindow → ∀ j, j ≠ 0 → V j) :
    Dialogue.Twins (Alike V) (c.execute i) (d.execute i) := by
  cases i with
  | load kind alternate rs1 src rd =>
    simp only [execute, h.sum]
    exact twins_load h ..
  | store kind rd rs1 src =>
    simp only [execute, h.sum]
    exact twins_store h ..
  | _ => exact .done (h.operate _ hV)

/-! ### Steps -/

/-- Steps with one result that leave processors alike. -/
def EndAlike (V : Nat → Prop) (x y : StepResult × Cpu) : Prop := y.1 = x.1 ∧ Alike V x.2 y.2

theorem twins_retire (h : Alike V c d) : Dialogue.Twins (EndAlike V) c.retire d.retire := by
  unfold retire
  rw [h.pendingTrap, h.pc]
  split
  · exact .remark (.done ⟨congrArg StepResult.trapped (h.report _), h⟩)
  · exact .done ⟨rfl, h.advance⟩

theorem twins_take (h : Alike V c d) (w : Word)
    (hV : (Instr.ofWord w).turnsWindow → ∀ j, j ≠ 0 → V j) :
    Dialogue.Twins (EndAlike V) (c.take w) (d.take w) := by
  have hclear := h.clearZero
  unfold take
  simp only [hclear.pendingAnnul, hclear.pc]
  split
  · exact .remark (.done ⟨rfl, (hclear.setAnnul false).advance⟩)
  · refine .remark ?_
    unfold dispatch
    rw [hclear.pc]
    split
    · exact (twins_execute hclear _ hV).bind fun _ _ => twins_retire
    · exact .remark (.done ⟨rfl, hclear⟩)

/-! ### What stays -/

/-- What a program in user mode has no access to is what it was. -/
structure KeepsSupervisor (c c' : Cpu) : Prop where
  s : c'.psr.s = c.psr.s
  ps : c'.psr.ps = c.psr.ps
  et : c'.psr.et = c.psr.et
  version : c'.psr.version = c.psr.version
  reserved : c'.psr.reserved = c.psr.reserved
  wim : c'.wim = c.wim
  tbr : c'.tbr = c.tbr

/-- The window is the one it was, and so are the registers outside of it. -/
structure KeepsHidden (c c' : Cpu) : Prop where
  cwp : c'.psr.cwp = c.psr.cwp
  size : c'.regs.size = c.regs.size
  file : ∀ i, (∀ r, i ≠ c.index r) → c'.regs[i]? = c.regs[i]?

theorem KeepsSupervisor.of_eq (hpsr : c'.psr = c.psr) (hwim : c'.wim = c.wim)
    (htbr : c'.tbr = c.tbr) : KeepsSupervisor c c' := by
  constructor <;> simp only [hpsr, hwim, htbr]

theorem KeepsSupervisor.trans {c'' : Cpu} (h : KeepsSupervisor c c') (h' : KeepsSupervisor c' c'') :
    KeepsSupervisor c c'' :=
  ⟨h'.s.trans h.s, h'.ps.trans h.ps, h'.et.trans h.et, h'.version.trans h.version,
    h'.reserved.trans h.reserved, h'.wim.trans h.wim, h'.tbr.trans h.tbr⟩

theorem KeepsHidden.refl (c : Cpu) : KeepsHidden c c := ⟨rfl, rfl, fun _ _ => rfl⟩

theorem KeepsHidden.trans {c'' : Cpu} (h : KeepsHidden c c') (h' : KeepsHidden c' c'') :
    KeepsHidden c c'' := by
  refine ⟨h'.cwp.trans h.cwp, h'.size.trans h.size, fun i hi => ?_⟩
  exact (h'.file i fun r => index_congr h.cwp h.size r ▸ hi r).trans (h.file i hi)

theorem keepsHidden_clearZero (c : Cpu) : KeepsHidden c c.clearZero :=
  ⟨rfl, Array.size_setIfInBounds, fun _ hi => Array.getElem?_setIfInBounds_ne (Ne.symm (hi 0))⟩

end Cpu

/-- What an instruction may write in user mode: nothing if it has to do with the
state registers. -/
def Instr.userFootprint (i : Instr) : Footprint :=
  match i with
  | readState .. | writeState .. | rett .. => {}
  | i => i.footprint

theorem Instr.userFootprint_plain (i : Instr) : i.userFootprint.mode = false ∧
    i.userFootprint.rest = false ∧ i.userFootprint.wim = false ∧ i.userFootprint.tbr = false ∧
    (i.turnsWindow = false → i.userFootprint.window = false) := by
  cases i with
  | load kind => cases kind <;> exact ⟨rfl, rfl, rfl, rfl, fun _ => rfl⟩
  | save | restore => exact ⟨rfl, rfl, rfl, rfl, nofun⟩
  | _ => exact ⟨rfl, rfl, rfl, rfl, fun _ => rfl⟩

/-- Saves and restores, by the fields of the word. -/
def Word.TurnsWindow (w : Word) : Prop := w.arith [0x3c, 0x3d]

instance (w : Word) : Decidable w.TurnsWindow :=
  inferInstanceAs (Decidable (w.op = 2 ∧ w.op3 ∈ [0x3c, 0x3d]))

theorem Instr.turnsWindow_ofWord {w : Word} (h : (ofWord w).turnsWindow) : w.TurnsWindow := by
  unfold ofWord at h
  split at h
  · unfold ofFormat2 at h
    split at h <;> cases h
  · cases h
  · rename_i hop
    refine ⟨hop, ?_⟩
    unfold ofFormat3 at h
    split at h
    all_goals try split at h
    all_goals first | exact absurd h Bool.false_ne_true | simp [*]
  · unfold ofMemory at h
    split at h <;> cases h

namespace Cpu

variable {c d c' d' : Cpu} {f : Footprint}

theorem Within.keepsSupervisor (h : Within f c c') (hmode : f.mode = false) (hrest : f.rest = false)
    (hwim : f.wim = false) (htbr : f.tbr = false) : KeepsSupervisor c c' :=
  ⟨h.s hmode, h.ps hrest, h.et hmode, h.version hrest, h.reserved hrest, h.wim hwim, h.tbr htbr⟩

theorem Within.keepsHidden (h : Within f c c') (hwindow : f.window = false) : KeepsHidden c c' := by
  refine ⟨h.cwp hwindow, h.size, fun i hi => ?_⟩
  refine Decidable.byContradiction fun hne => ?_
  obtain ⟨r, -, hr⟩ := h.file i hne
  exact hi r (hr.trans (index_congr (h.cwp hwindow) h.size r))

theorem within_execute_user (hu : c.psr.s = false) (i : Instr) :
    (c.execute i).Always fun _ c' => Within i.userFootprint c c' := by
  have hraise : ∀ t, Within {} c (c.raise t) := (Within.refl {} c).raise
  cases i with
  | readState | writeState =>
    show Within _ c (c.operate _)
    simp only [operate, supervised_user hu]
    exact hraise _
  | rett rs1 src =>
    show Within _ c (c.returnFromTrap rs1 src)
    unfold returnFromTrap
    simp only [hu, Bool.not_false, if_true]
    split
    · exact hraise _
    · exact hraise _
  | _ => exact (within_execute c _).mono fun _ _ h => h

/-- **A step in user mode** keeps what belongs to the supervisor, and if it does
not save or restore also the registers outside the window. -/
theorem always_step_user (hu : c.psr.s = false) : c.step.Always fun l r =>
    KeepsSupervisor c r.2 ∧
      ((∀ w rest, l = .read c.pc (.ok w) :: rest → ¬ w.TurnsWindow) → KeepsHidden c r.2) := by
  have hzero := keepsHidden_clearZero c
  refine always_step ?_ ?_ ?_ ?_ ?_ ?_
  · exact fun _ => ⟨.of_eq rfl rfl rfl, fun _ => ⟨rfl, rfl, fun _ _ => rfl⟩⟩
  · exact fun _ _ => ⟨.of_eq rfl rfl rfl, fun _ => ⟨rfl, rfl, fun _ _ => rfl⟩⟩
  · exact fun _ _ _ _ => ⟨.of_eq rfl rfl rfl, fun _ => .refl c⟩
  · exact fun _ _ _ _ => ⟨.of_eq rfl rfl rfl, fun _ => ⟨rfl, hzero.size, hzero.file⟩⟩
  · exact fun _ _ _ _ _ => ⟨.of_eq rfl rfl rfl, fun _ => hzero⟩
  · intro word _ _ _ _
    have huser : c.clearZero.psr.s = false := hu
    obtain ⟨hmode, hrest, hwim, htbr, hwindow⟩ := (Instr.ofWord word).userFootprint_plain
    refine (within_execute_user huser (Instr.ofWord word)).mono fun l c₁ h => ?_
    have hout := h.outcome
    have hsupervisor : KeepsSupervisor c c.clearZero := .of_eq rfl rfl rfl
    refine ⟨hsupervisor.trans (hout.keepsSupervisor hmode hrest hwim htbr), fun hturn => ?_⟩
    refine hzero.trans (hout.keepsHidden (hwindow ?_))
    exact Bool.eq_false_iff.mpr fun h => hturn word l rfl (Instr.turnsWindow_ofWord h)

/-! ### One step of two processors -/

/-- What a program in user mode can find out about two processors is the same. -/
structure SameForUser (c d : Cpu) : Prop extends Matched c d where
  visible : ∀ r, d.get r = c.get r

/-- The files agree, up to the place of register 0. -/
def SameFile (c d : Cpu) : Prop := ∀ i, i ≠ 0 → d.regs[i]? = c.regs[i]?

theorem Alike.same {V : Nat → Prop} (h : Alike V c d) : SameForUser c d := ⟨h.toMatched, h.get⟩

theorem SameForUser.alike_file (h : SameForUser c d) (hf : SameFile c d) : Alike (· ≠ 0) c d :=
  ⟨h.toMatched, hf, fun _ hr => index_ne_zero c hr⟩

theorem SameForUser.alike_visible (h : SameForUser c d) :
    Alike (fun i => ∃ r : Reg, r ≠ 0 ∧ i = c.index r) c d := by
  refine ⟨h.toMatched, ?_, fun r hr => ⟨r, hr, rfl⟩⟩
  rintro _ ⟨r, hr, rfl⟩
  have hget := h.visible r
  unfold Cpu.get at hget
  rw [if_neg hr, if_neg hr, index_congr h.cwp h.size, Array.getD_eq_getD_getElem?,
    Array.getD_eq_getD_getElem?] at hget
  by_cases hlt : c.index r < c.regs.size
  · have hlt' : c.index r < d.regs.size := h.size.symm ▸ hlt
    rw [Array.getElem?_eq_getElem hlt, Array.getElem?_eq_getElem hlt'] at hget ⊢
    exact congrArg some hget
  · rw [Array.getElem?_eq_none (Nat.le_of_not_lt hlt),
      Array.getElem?_eq_none (h.size.symm ▸ Nat.le_of_not_lt hlt)]

section TwoRuns

variable {σ : Type} {bus : Bus σ} {s : σ} {V : Nat → Prop}

theorem step_alike (bus : Bus σ) (s : σ) (h : Alike V c d)
    (hV : ∀ w, c.fetched bus s = some w → w.TurnsWindow → ∀ j, j ≠ 0 → V j) :
    d.step.transcript bus s = c.step.transcript bus s ∧
      (d.step.hold bus s).2 = (c.step.hold bus s).2 ∧
      EndAlike V (c.step.hold bus s).1 (d.step.hold bus s).1 := by
  have hfailed : Dialogue.Twins (EndAlike V) (c.trapped .instructionAccess)
      (d.trapped .instructionAccess) := by
    unfold trapped
    rw [h.pc, h.report]
    exact .remark (.done ⟨rfl, h.raise _⟩)
  unfold step
  rw [h.pc]
  split
  · rename_i ha
    -- what `V` has to hold depends on the word, so the twins start after the fetch
    cases hread : (bus.read c.pc s).1 with
    | error e =>
      obtain ⟨hl, hs, hr⟩ := hfailed.hold bus (bus.hear (.fetchFailed c.pc e) (bus.read c.pc s).2)
      simp only [Dialogue.transcript, Dialogue.hold, hread]
      exact ⟨congrArg _ hl, hs, hr⟩
    | ok w =>
      simp only [Dialogue.transcript, Dialogue.hold, hread, h.pendingTrap]
      cases hp : c.pendingTrap with
      | some t => exact ⟨rfl, rfl, congrArg StepResult.trapped (h.report t), h⟩
      | none =>
        have hf := fetched_eq_some.mpr ⟨ha, hread⟩
        have htake := twins_take h w fun hturn => hV w hf (Instr.turnsWindow_ofWord hturn)
        obtain ⟨hl, hs, hr⟩ := htake.hold bus (bus.read c.pc s).2
        exact ⟨congrArg _ hl, hs, hr⟩
  · exact (Dialogue.Twins.remark hfailed).hold bus s

/-- Two processors carry out the same with a bus, `x` the one and `y` the other,
fetching `words`: they make the same accesses, come to the same result and leave the
same device. A program finds the same in both afterwards, and in each of them it has
changed nothing of the supervisor's, and no register outside the window unless it
saves or restores. -/
structure Confined {ρ : Type} (bus : Bus σ) (s : σ) (words : List Word) (c d : Cpu)
    (x y : Dialogue (ρ × Cpu)) : Prop where
  transcript : y.transcript bus s = x.transcript bus s
  device : (y.hold bus s).2 = (x.hold bus s).2
  result : (y.hold bus s).1.1 = (x.hold bus s).1.1
  same : SameForUser (x.hold bus s).1.2 (y.hold bus s).1.2
  file : SameFile c d → SameFile (x.hold bus s).1.2 (y.hold bus s).1.2
  supervisor : KeepsSupervisor c (x.hold bus s).1.2
  supervisor' : KeepsSupervisor d (y.hold bus s).1.2
  hidden : (∀ w ∈ words, ¬ w.TurnsWindow) → KeepsHidden c (x.hold bus s).1.2
  hidden' : (∀ w ∈ words, ¬ w.TurnsWindow) → KeepsHidden d (y.hold bus s).1.2

/-- What one of the processors keeps in a step. -/
theorem step_user (hu : c.psr.s = false) (bus : Bus σ) (s : σ) :
    KeepsSupervisor c (c.step.hold bus s).1.2 ∧
      ((∀ w ∈ (c.fetched bus s).toList, ¬ w.TurnsWindow) →
        KeepsHidden c (c.step.hold bus s).1.2) := by
  obtain ⟨hsupervisor, hhidden⟩ := (always_step_user hu).hold bus s
  refine ⟨hsupervisor, fun hturn => hhidden fun w rest hl => hturn w ?_⟩
  exact Option.mem_toList.mpr (fetched_of_transcript hl)

/-- **One step of two processors** in user mode. -/
theorem confined_step (h : SameForUser c d)
    (hw : ∀ w ∈ (c.fetched bus s).toList, w.TurnsWindow → SameFile c d) :
    Confined bus s (c.fetched bus s).toList c d c.step d.step := by
  have hfetched : d.fetched bus s = c.fetched bus s := by
    unfold fetched
    rw [h.pc]
  obtain ⟨hsupervisor, hhidden⟩ := step_user h.user bus s
  obtain ⟨hsupervisor', hhidden'⟩ := step_user h.user' bus s
  rw [hfetched] at hhidden'
  by_cases hf : SameFile c d
  · -- the files stay the same, whatever the word is
    obtain ⟨hl, hs, hr, halike⟩ := step_alike bus s (h.alike_file hf) fun _ _ _ _ => id
    exact ⟨hl, hs, hr, halike.same, fun _ => halike.file, hsupervisor, hsupervisor', hhidden, hhidden'⟩
  · -- the word stays in the window, and there the files agree
    obtain ⟨hl, hs, hr, halike⟩ := step_alike bus s h.alike_visible
      fun w hfetch hturn => absurd (hw w (Option.mem_toList.mpr hfetch) hturn) hf
    exact ⟨hl, hs, hr, halike.same, fun hsame => absurd hsame hf, hsupervisor, hsupervisor', hhidden,
      hhidden'⟩

/-! ### Rows of steps -/

/-- One thing after the other. -/
theorem Confined.bind {ρ τ : Type} {ws ws' : List Word} {x y : Dialogue (ρ × Cpu)}
    {f g : ρ × Cpu → Dialogue (τ × Cpu)} (h : Confined bus s ws c d x y)
    (h' : Confined bus (x.hold bus s).2 ws' (x.hold bus s).1.2 (y.hold bus s).1.2
      (f (x.hold bus s).1) (g (y.hold bus s).1)) :
    Confined bus s (ws ++ ws') c d (x.bind f) (y.bind g) := by
  constructor
  case transcript =>
    rw [Dialogue.transcript_bind, Dialogue.transcript_bind, h.transcript, h.device, h'.transcript]
  case hidden =>
    intro hturn
    rw [List.forall_mem_append] at hturn
    rw [Dialogue.hold_bind]
    exact (h.hidden hturn.1).trans (h'.hidden hturn.2)
  case hidden' =>
    intro hturn
    rw [List.forall_mem_append] at hturn
    rw [Dialogue.hold_bind, h.device]
    exact (h.hidden' hturn.1).trans (h'.hidden' hturn.2)
  all_goals simp only [Dialogue.hold_bind, h.device]
  case device => exact h'.device
  case result => exact h'.result
  case same => exact h'.same
  case file => exact fun hf => h'.file (h.file hf)
  case supervisor => exact h.supervisor.trans h'.supervisor
  case supervisor' => exact h.supervisor'.trans h'.supervisor'

theorem Confined.map {ρ τ : Type} {ws : List Word} {x y : Dialogue (ρ × Cpu)}
    (h : Confined bus s ws c d x y) (k : ρ → τ) :
    Confined bus s ws c d (x.map fun (r, c) => (k r, c)) (y.map fun (r, c) => (k r, c)) := by
  obtain ⟨hl, hs, hr, hsame, hfile, hsup, hsup', hhid, hhid'⟩ := h
  constructor
  case transcript => rw [Dialogue.transcript_map, Dialogue.transcript_map, hl]
  all_goals simp only [Dialogue.hold_map]
  case result => exact congrArg k hr
  all_goals assumption

/-- The words that `n` steps fetch. -/
def words (bus : Bus σ) : Nat → Cpu → σ → List Word
  | 0, _, _ => []
  | n + 1, c, s =>
    (c.fetched bus s).toList ++
      match c.step.hold bus s with
      | ((.unimplemented _, _), _) => []
      | ((_, c), s) => words bus n c s

theorem confined_done {ρ : Type} (h : SameForUser c d) (r : ρ) :
    Confined bus s [] c d (.done (r, c)) (.done (r, d)) := by
  have hkeeps : ∀ c : Cpu, KeepsSupervisor c c := fun _ => .of_eq rfl rfl rfl
  exact ⟨rfl, rfl, rfl, h, id, hkeeps c, hkeeps d, fun _ => .refl c, fun _ => .refl d⟩

/-- **Any number of steps of two processors** in user mode. -/
theorem confined_steps (n : Nat) (h : SameForUser c d)
    (hw : ∀ w ∈ words bus n c s, w.TurnsWindow → SameFile c d) :
    Confined bus s (words bus n c s) c d (c.steps n) (d.steps n) := by
  -- on the number of steps; a later save or restore needs the files as they were left
  induction n generalizing c d s with
  | zero => exact confined_done h []
  | succ n ih =>
    have hstep : Confined bus s (c.fetched bus s).toList c d c.step d.step :=
      confined_step h fun w hmem => hw w (List.mem_append_left _ hmem)
    refine hstep.bind ?_
    have hrest := fun w hmem => hw w (List.mem_append_right _ hmem)
    have hresult := hstep.result
    have hdevice := hstep.device
    have hsame := hstep.same
    have hfile := hstep.file
    rcases hx : c.step.hold bus s with ⟨⟨r, c₁⟩, s₁⟩
    rcases hy : d.step.hold bus s with ⟨⟨r', d₁⟩, s₁'⟩
    rw [hx] at hrest
    rw [hx, hy] at hresult hdevice hsame hfile
    obtain rfl : r' = r := hresult
    cases r' with
    | unimplemented word => exact confined_done hsame _
    | completed => exact (ih hsame fun w hmem hturn => hfile (hrest w hmem hturn)).map _
    | trapped t => exact (ih hsame fun w hmem hturn => hfile (hrest w hmem hturn)).map _

end TwoRuns

end Cpu

/-- **User mode is confined.** Take two processors in user mode that agree on the
program counters, the registers of the window, the flags, the window and the invalid
mask, `%y`, what is pending and the configuration. Whatever the bus holds, a step of
the one and a step of the other make the same accesses and come to the same result,
and the two agree afterwards; if the word saves or restores, the files have to agree
as a whole for that. In each of them the supervisor's part is what it was, and so are
the registers outside of the window if the word does not save or restore. The same
holds of any number of steps without a delivery. -/
theorem user_confined {σ : Type} {c d : Cpu} (h : c.SameForUser d) (bus : Bus σ) (s : σ) :
    ((∀ w ∈ (c.fetched bus s).toList, w.TurnsWindow → c.SameFile d) →
      Cpu.Confined bus s (c.fetched bus s).toList c d c.step d.step) ∧
    ∀ n, (∀ w ∈ Cpu.words bus n c s, w.TurnsWindow → c.SameFile d) →
      Cpu.Confined bus s (Cpu.words bus n c s) c d (c.steps n) (d.steps n) :=
  ⟨Cpu.confined_step h, fun n => Cpu.confined_steps n h⟩

/-- A bus with `st %g0, [%g0 + 8]` at the start and `rd %psr, %o0` everywhere else. -/
def stateReadBus : Bus Unit where
  read addr s := (.ok (if addr = 0 then 0xc0202008 else 0x91480000), s)
  write _ _ s := (.ok (), s)

/-- In user mode, with two windows. -/
def userTwo : Cpu := { resetTwo with psr := { Cpu.resetState with s := false } }

/-- The same under another supervisor: the trap base, the state register and a local
of the other window differ. -/
def userElsewhere : Cpu :=
  { userTwo with
    tbr := 0x1000
    psr := { userTwo.psr with ps := true, et := false, version := 3 }
    regs := userTwo.regs.set! 33 9 }

/-- Under both a store goes through, and the state register cannot be read. -/
theorem user_confined_state_read :
    userTwo.SameForUser userElsewhere ∧
      (∀ w ∈ Cpu.words stateReadBus 2 userTwo (), w.TurnsWindow → userTwo.SameFile userElsewhere) ∧
      Cpu.Confined stateReadBus () (Cpu.words stateReadBus 2 userTwo ()) userTwo userElsewhere
        (userTwo.steps 2) (userElsewhere.steps 2) ∧
      ((userElsewhere.steps 2).hold stateReadBus ()).1 =
        ([.completed, .trapped ⟨.privilegedInstruction, 4, 8⟩],
          { userElsewhere with pc := 4, npc := 8, pendingTrap := some .privilegedInstruction }) := by
  have h : userTwo.SameForUser userElsewhere := ⟨by constructor <;> rfl, by decide⟩
  have hwords : Cpu.words stateReadBus 2 userTwo () = [0xc0202008, 0x91480000] := by decide
  have hquiet : ∀ w ∈ Cpu.words stateReadBus 2 userTwo (), ¬ w.TurnsWindow := by
    rw [hwords, List.forall_mem_cons, List.forall_mem_singleton]
    exact ⟨by decide, by decide⟩
  have hw : ∀ w ∈ Cpu.words stateReadBus 2 userTwo (), w.TurnsWindow →
      userTwo.SameFile userElsewhere := fun w hmem hturn => absurd hturn (hquiet w hmem)
  exact ⟨h, hw, (user_confined h stateReadBus ()).2 2 hw, by decide⟩

end SparcIU
