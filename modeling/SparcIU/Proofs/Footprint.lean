/-
# What an instruction may change

Every instruction has a footprint: the flags, the mode, the rest of the state
register, the window, the other state registers and the registers it may write,
and whether it writes to the bus (`Instr.footprint`). Whatever it is carried out
on, and whether it traps or not, it changes nothing else (`Cpu.within_operate`,
`Cpu.within_execute`, `Cpu.quiet_execute`). Which words have which footprint can
be read off their fields (`Instr.allows_ofWord`), so that a step changes a
part of the processor only if the operation field of its word is in a short list
(`frame_law`).

Key definitions: `Footprint`, `Instr.footprint`, `Cpu.Within`, `Word.targets`,
`Cpu.Framed`.
Key theorems: `Cpu.within_operate`, `Cpu.within_execute`,
`Instr.allows_ofWord`, `Cpu.framed_step`, `frame_law`.
-/
import SparcIU.Proofs.DelayedTransfer

namespace SparcIU

/-- The parts of a processor, and the bus, that may be written. -/
structure Footprint where
  flags : Bool := false
  /-- The mode, and whether traps are enabled. -/
  mode : Bool := false
  /-- The state register but for the flags, the mode, the trap enable bit and the
  window. -/
  rest : Bool := false
  window : Bool := false
  wim : Bool := false
  tbr : Bool := false
  y : Bool := false
  bus : Bool := false
  /-- Seen from the window that is current afterwards. -/
  regs : List Reg := []

/-- What an instruction may write. -/
def Instr.footprint : Instr → Footprint
  | nop | branch .. | trapIf .. | unknown _ => {}
  | sethi _ rd | shift _ _ _ rd | readState _ rd | jmpl _ _ rd => { regs := [rd] }
  | call _ => { regs := [Reg.o7] }
  | alu _ setsIcc _ _ rd | div _ setsIcc _ _ rd => { flags := setsIcc, regs := [rd] }
  | mul _ setsIcc _ _ rd => { flags := setsIcc, y := true, regs := [rd] }
  | mulscc _ _ rd => { flags := true, y := true, regs := [rd] }
  | writeState _ _ .y => { y := true }
  | writeState _ _ .psr => { flags := true, mode := true, rest := true, window := true }
  | writeState _ _ .wim => { wim := true }
  | writeState _ _ .tbr => { tbr := true }
  | rett _ _ => { mode := true, window := true }
  | save _ _ rd | restore _ _ rd => { window := true, regs := [rd] }
  | load .double _ _ _ rd => { regs := [Cpu.evenOf rd, Cpu.oddOf rd] }
  | load .testAndSet _ _ _ rd => { bus := true, regs := [rd] }
  | load _ _ _ _ rd => { regs := [rd] }
  | store .. => { bus := true }

/-- A request to write, granted or not. -/
def Access.isWrite : Access → Bool
  | read _ _ => false
  | write _ _ _ => true

namespace Cpu

variable {c c' c'' : Cpu} {f : Footprint}

/-- The change from `c` to `c'` stays within a footprint. The low bits of the
trap base register are in no footprint. -/
structure Within (f : Footprint) (c c' : Cpu) : Prop where
  icc : f.flags = false → c'.psr.icc = c.psr.icc
  s : f.mode = false → c'.psr.s = c.psr.s
  et : f.mode = false → c'.psr.et = c.psr.et
  ps : f.rest = false → c'.psr.ps = c.psr.ps
  version : f.rest = false → c'.psr.version = c.psr.version
  reserved : f.rest = false → c'.psr.reserved = c.psr.reserved
  cwp : f.window = false → c'.psr.cwp = c.psr.cwp
  wim : f.wim = false → c'.wim = c.wim
  tbr : f.tbr = false → c'.tbr = c.tbr
  number : c'.tbr % 0x1000 = c.tbr % 0x1000
  y : f.y = false → c'.y = c.y
  config : c'.config = c.config
  size : c'.regs.size = c.regs.size
  file : ∀ i, c'.regs[i]? ≠ c.regs[i]? → ∃ r ∈ f.regs, i = c'.index r

/-- Where a register lies is a matter of the window and the file's length. -/
theorem index_congr (hcwp : c'.psr.cwp = c.psr.cwp) (hsize : c'.regs.size = c.regs.size) (r : Reg) :
    c'.index r = c.index r := by
  unfold index cwp
  rw [hcwp, hsize]

/-! ### Changes within a footprint -/

/-- The program counters and what is pending are in no footprint. -/
theorem Within.congr (h : Within f c c') (hpsr : c''.psr = c'.psr) (hregs : c''.regs = c'.regs)
    (hwim : c''.wim = c'.wim) (htbr : c''.tbr = c'.tbr) (hy : c''.y = c'.y)
    (hconfig : c''.config = c'.config) : Within f c c'' := by
  have hindex : ∀ r, c''.index r = c'.index r :=
    index_congr (congrArg Psr.cwp hpsr) (congrArg Array.size hregs)
  obtain ⟨icc, s, et, ps, version, reserved, cwp, wim, tbr, number, y, config, size, file⟩ := h
  constructor
  case file =>
    intro i hi
    rw [hregs] at hi
    obtain ⟨r, hr, rfl⟩ := file i hi
    exact ⟨r, hr, (hindex r).symm⟩
  all_goals simpa only [hpsr, hregs, hwim, htbr, hy, hconfig]

/-- Nothing is asked of a part that the footprint holds. -/
theorem held {p : Prop} (h : true = false) : p := Bool.noConfusion h

/-- Nothing has changed. -/
theorem Within.refl (f : Footprint) (c : Cpu) : Within f c c := by
  constructor
  case file => exact fun i hi => absurd rfl hi
  all_goals first | rfl | exact fun _ => rfl

theorem Within.raise (h : Within f c c') (t : TrapKind) : Within f c (c'.raise t) :=
  h.congr rfl rfl rfl rfl rfl rfl

/-- A footprint with more registers. -/
theorem Within.widen {l : List Reg} (h : Within f c c') (hl : f.regs ⊆ l) :
    Within { f with regs := l } c c' := by
  refine { h with file := fun i hi => ?_ }
  obtain ⟨r, hr, rfl⟩ := h.file i hi
  exact ⟨r, hl hr, rfl⟩

/-- A register that is written comes to the footprint. -/
theorem Within.set (h : Within f c c') (r : Reg) (v : Word) :
    Within { f with regs := r :: f.regs } c (c'.set r v) := by
  have hindex : ∀ r', (c'.set r v).index r' = c'.index r' :=
    index_congr (congrArg Psr.cwp (set_psr c' r v)) (size_set c' r v)
  obtain ⟨icc, s, et, ps, version, reserved, cwp, wim, tbr, number, y, config, size, file⟩ := h
  constructor
  case file =>
    intro i hi
    by_cases hplace : i = c'.index r
    · exact ⟨r, List.mem_cons_self, hplace.trans (hindex r).symm⟩
    · have hsame : (c'.set r v).regs[i]? = c'.regs[i]? := by
        by_cases hr : r = 0
        · rw [hr, set_zero]
        · rw [regs_set c' v hr, Array.getElem?_setIfInBounds_ne (Ne.symm hplace)]
      rw [hsame] at hi
      obtain ⟨r', hr', rfl⟩ := file i hi
      exact ⟨r', List.mem_cons_of_mem _ hr', (hindex r').symm⟩
  all_goals simpa

/-- The flags come to the footprint. -/
theorem Within.setIcc (h : Within f c c') (g : Icc) :
    Within { f with flags := true } c (c'.setIcc g) :=
  { h with icc := held }

theorem Within.finish (h : Within f c c') (rd : Reg) (v : Word) (setsIcc : Bool) (g : Icc)
    (hf : f.flags = false) :
    Within { f with flags := setsIcc, regs := rd :: f.regs } c (c'.finish rd v setsIcc g) := by
  have hset := h.set rd v
  unfold Cpu.finish
  cases setsIcc with
  | false => exact { hset with icc := fun _ => hset.icc hf }
  | true => exact hset.setIcc g

/-- Writing `%y` alone. -/
theorem within_setY (c : Cpu) (v : Word) : Within { y := true } c { c with y := v } :=
  { Within.refl {} c with y := held }

/-- A base is exchanged for another one, and the number stays. -/
theorem number_of_base (v w : Word) : (v - v % 0x1000 + w % 0x1000) % 0x1000 = w % 0x1000 := by
  have h4096 : (0x1000 : Word).toNat = 0x1000 := rfl
  rw [← UInt32.toNat_inj, UInt32.toNat_mod, UInt32.toNat_add, Word.toNat_page, UInt32.toNat_mod, h4096]
  omega

theorem within_setState (c : Cpu) (rs1 : Reg) (src : Operand) (r : StateReg) (v : Word) :
    Within (Instr.writeState rs1 src r).footprint c (c.setState r v) := by
  have hrefl := Within.refl {} c
  cases r with
  | y => exact within_setY c v
  | psr =>
    simp only [setState]
    split
    · exact { hrefl with
        icc := held, s := held, et := held, ps := held, version := held, reserved := held,
        cwp := held, file := fun i hi => absurd rfl hi }
    · exact (Within.refl _ c).raise _
  | wim => exact { hrefl with wim := held }
  | tbr => exact { hrefl with tbr := held, number := number_of_base v c.tbr }

theorem within_supervised {act : Cpu → Cpu} (h : Within f c (act c)) :
    Within f c (c.supervised act) := by
  unfold supervised
  split
  · exact h
  · exact (Within.refl f c).raise _

theorem within_branch (c : Cpu) (cond : Cond) (annul : Bool) (offset : Word) :
    Within {} c (c.branch cond annul offset) := by
  have h := Within.refl {} c
  unfold branch
  simp only
  split <;> split <;> exact h.congr rfl rfl rfl rfl rfl rfl

theorem within_returnFromTrap (c : Cpu) (rs1 : Reg) (src : Operand) :
    Within (Instr.rett rs1 src).footprint c (c.returnFromTrap rs1 src) := by
  have hraise : ∀ t, Within (Instr.rett rs1 src).footprint c (c.raise t) := (Within.refl _ c).raise
  unfold returnFromTrap
  simp only
  split
  · exact hraise _
  · split
    · exact hraise _
    · split
      · exact hraise _
      · exact { Within.refl {} c with
          s := held, et := held, cwp := held, file := fun i hi => absurd rfl hi }

/-- A window that is entered, and the register that is written there. -/
theorem within_moveWindow (c : Cpu) (t : Turn) (rs1 : Reg) (src : Operand) (rd : Reg) :
    Within { window := true, regs := [rd] } c (c.moveWindow t rs1 src rd) := by
  unfold moveWindow
  simp only
  split
  · exact (Within.refl _ c).raise _
  · have henter : Within { window := true } c (c.setCwp (c.neighbour t)) :=
      { Within.refl {} c with cwp := held, file := fun i hi => absurd rfl hi }
    exact henter.set rd _

/-- **Instructions stay within their footprints**, if they do not use the bus. -/
theorem within_operate (c : Cpu) (i : Instr) : Within i.footprint c (c.operate i) := by
  have hrefl := Within.refl {} c
  cases i with
  | nop | load | store | unknown => exact .refl _ c
  | sethi v rd | shift op rs1 src rd => exact hrefl.set ..
  | branch cond annul offset => exact within_branch ..
  | call offset | jmpl rs1 src rd => exact (hrefl.set ..).congr rfl rfl rfl rfl rfl rfl
  | alu op setsIcc rs1 src rd => exact hrefl.finish _ _ _ _ rfl
  | mul signed setsIcc rs1 src rd => exact (within_setY c _).finish _ _ _ _ rfl
  | mulscc rs1 src rd =>
    simp only [operate, multiplyStep]
    exact (within_setY c _).finish _ _ true _ rfl
  | div signed setsIcc rs1 src rd =>
    simp only [operate, divide]
    split
    · exact (Within.refl _ c).raise _
    · exact hrefl.finish _ _ _ _ rfl
  | readState r rd =>
    simp only [operate]
    exact within_supervised (hrefl.set ..)
  | writeState rs1 src r =>
    simp only [operate]
    exact within_supervised (within_setState ..)
  | rett rs1 src => exact within_returnFromTrap ..
  | trapIf cond rs1 src =>
    simp only [operate, trapIf]
    split
    · exact hrefl.raise _
    · exact hrefl
  | save rs1 src rd | restore rs1 src rd => exact within_moveWindow ..

/-! ### Loads and stores -/

theorem within_load (c : Cpu) (kind : LoadKind) (alternate : Bool) (addr : Word) (rs1 : Reg)
    (src : Operand) (rd : Reg) : (c.load kind addr rd).Always fun _ c' =>
      Within (Instr.load kind alternate rs1 src rd).footprint c c' := by
  have hrefl := Within.refl {} c
  have hraise : ∀ f t, Within f c (c.raise t) := fun f => (Within.refl f c).raise
  cases kind with
  | word | unsignedByte | unsignedHalf | signedByte | signedHalf =>
    simp only [load]
    exact always_readWord (fun w _ => hrefl.set rd _) (fun _ _ => hraise _ _) fun _ => hraise _ _
  | double =>
    simp only [load]
    refine always_readWord (fun high _ => ?_) (fun _ _ => hraise _ _) fun _ => hraise _ _
    have hhigh := hrefl.set (evenOf rd) high
    -- a second access that fails leaves the first register written
    have hcut : ∀ t, Within { regs := [evenOf rd, oddOf rd] } c ((c.set (evenOf rd) high).raise t) :=
      fun t => (hhigh.raise t).widen (by simp)
    refine always_readWord (fun low _ => ?_) (fun _ _ => hcut _) fun _ => hcut _
    exact (hhigh.set (oddOf rd) low).widen (by simp)
  | testAndSet =>
    simp only [load]
    refine always_readWord (fun w _ => ?_) (fun _ _ => hraise _ _) fun _ => hraise _ _
    have hset : Within { bus := true, regs := [rd] } c (c.set rd (w.byte addr.lane).toUInt32) :=
      (Within.refl { bus := true } c).set rd _
    exact always_writeWord (fun _ => hset) (fun _ _ => hset.raise _) fun _ => hset.raise _

theorem within_execute (c : Cpu) (i : Instr) :
    (c.execute i).Always fun _ c' => Within i.footprint c c' := by
  cases i with
  | load kind alternate rs1 src rd => exact within_load ..
  | store kind rd rs1 src =>
    exact always_store (P := Within { bus := true } c) (fun _ h => h.raise _) (.refl _ c) ..
  | _ => exact within_operate ..

/-- Without the bus in its footprint an instruction asks for no write. -/
theorem quiet_execute (c : Cpu) (i : Instr) :
    (c.execute i).Always fun l _ => ∀ a ∈ l, a.isWrite → i.footprint.bus = true := by
  have hnil : ∀ p : Prop, ∀ a ∈ ([] : List Access), a.isWrite → p := fun p a ha =>
    absurd ha List.not_mem_nil
  have hread : ∀ {p : Prop} {c₁ : Cpu} {addr : Word} {next : Cpu → Word → Dialogue Cpu},
      (∀ w, (next c₁ w).Always fun l _ => ∀ a ∈ l, a.isWrite → p) →
      (c₁.readWord addr next).Always fun l _ => ∀ a ∈ l, a.isWrite → p := by
    intro p c₁ addr next h
    refine always_readWord (fun w _ => (h w).mono fun l _ hl => ?_) (fun e _ => ?_) fun _ => hnil p
    · exact List.forall_mem_cons.mpr ⟨nofun, hl⟩
    · exact List.forall_mem_cons.mpr ⟨nofun, hnil p⟩
  cases i with
  | load kind alternate rs1 src rd =>
    cases kind with
    | word | unsignedByte | unsignedHalf | signedByte | signedHalf =>
      simp only [execute, load]
      exact hread fun w => hnil _
    | double =>
      simp only [execute, load]
      exact hread fun high => hread fun low => hnil _
    | testAndSet => exact (within_execute c _).mono fun _ _ _ _ _ _ => rfl
  | store kind rd rs1 src => exact (within_execute c _).mono fun _ _ _ _ _ _ => rfl
  | _ => exact hnil _

end Cpu

/-! ### Words and their footprints -/

/-- A word of format 3 with one of the operations `ops`, not a load or a store. -/
def Word.arith (w : Word) (ops : List Nat) : Prop := w.op = 2 ∧ w.op3 ∈ ops

/-- A load or a store with one of the operations `ops`. -/
def Word.memory (w : Word) (ops : List Nat) : Prop := w.op = 3 ∧ w.op3 ∈ ops

/-! The words that may write a part of the processor, or to the bus. -/

/-- `addcc`, `andcc`, `orcc`, `xorcc`, `subcc`, `umulcc`, `smulcc`, `udivcc`,
`sdivcc`, `mulscc` and `wrpsr`. -/
def Word.WritesFlags (w : Word) : Prop :=
  w.arith [0x10, 0x11, 0x12, 0x13, 0x14, 0x1a, 0x1b, 0x1e, 0x1f, 0x24, 0x31]

/-- `rett` and `wrpsr`. -/
def Word.WritesMode (w : Word) : Prop := w.arith [0x39, 0x31]

/-- `wrpsr`. -/
def Word.WritesRest (w : Word) : Prop := w.arith [0x31]

/-- `save`, `restore`, `rett` and `wrpsr`. -/
def Word.WritesWindow (w : Word) : Prop := w.arith [0x3c, 0x3d, 0x39, 0x31]

/-- `wrwim`. -/
def Word.WritesWim (w : Word) : Prop := w.arith [0x32]

/-- `wrtbr`. -/
def Word.WritesTbr (w : Word) : Prop := w.arith [0x33]

/-- `umul`, `smul`, `umulcc`, `smulcc` and `mulscc`, and `wr` to `%y`. -/
def Word.WritesY (w : Word) : Prop :=
  w.arith [0x0a, 0x0b, 0x1a, 0x1b, 0x24] ∨ w.arith [0x30] ∧ w.rd = 0

/-- `st`, `stb`, `sth`, `std` and `ldstub`. -/
def Word.WritesBus (w : Word) : Prop := w.memory [0x04, 0x05, 0x06, 0x07, 0x0d]

/-- The registers a word may write: `rd` as a rule; the register of the return
address for a call; a pair for a double load; none for a branch or a no-op, for
the writes of state registers, a return from a trap and a conditional trap, and
for a store. -/
def Word.targets (w : Word) : List Reg :=
  match w.op with
  | 0 => if w.op2 = 4 then [w.rd] else []
  | 1 => [Reg.o7]
  | 2 => if w.op3 ∈ [0x30, 0x31, 0x32, 0x33, 0x39, 0x3a] then [] else [w.rd]
  | _ =>
    if w.op3 = 0x03 then [Cpu.evenOf w.rd, Cpu.oddOf w.rd]
    else if w.op3 ∈ [0x04, 0x05, 0x06, 0x07] then [] else [w.rd]

/-- The fields of a word let it have the footprint `f`. -/
structure Word.Allows (w : Word) (f : Footprint) : Prop where
  flags : f.flags = true → w.WritesFlags
  mode : f.mode = true → w.WritesMode
  rest : f.rest = true → w.WritesRest
  window : f.window = true → w.WritesWindow
  wim : f.wim = true → w.WritesWim
  tbr : f.tbr = true → w.WritesTbr
  y : f.y = true → w.WritesY
  bus : f.bus = true → w.WritesBus
  regs : f.regs ⊆ w.targets

theorem allows_ofFormat2 {w : Word} (h : w.op = 0) : w.Allows (Instr.ofFormat2 w).footprint := by
  unfold Instr.ofFormat2
  split <;> constructor <;> simp_all [Instr.footprint, Word.targets]

theorem allows_ofFormat3 {w : Word} (h : w.op = 2) : w.Allows (Instr.ofFormat3 w).footprint := by
  unfold Instr.ofFormat3
  split
  all_goals try split
  all_goals constructor <;> simp [Instr.footprint, Word.targets, Word.arith, Word.WritesFlags, Word.WritesMode,
    Word.WritesRest, Word.WritesWindow, Word.WritesWim, Word.WritesTbr, Word.WritesY, *]

theorem allows_ofMemory {w : Word} (h : w.op = 3) : w.Allows (Instr.ofMemory w).footprint := by
  unfold Instr.ofMemory
  split
  all_goals constructor <;> simp [Instr.footprint, Word.targets, Word.memory, Word.WritesBus, *]

/-- **The fields say what may be written.** -/
theorem Instr.allows_ofWord (w : Word) : w.Allows (ofWord w).footprint := by
  have hlt := w.op_lt
  unfold ofWord
  split
  · exact allows_ofFormat2 ‹_›
  · constructor <;> simp_all [footprint, Word.targets]
  · exact allows_ofFormat3 ‹_›
  · rename_i h0 h1 h2
    have hnot : ¬ w.op = 0 ∧ ¬ w.op = 1 ∧ ¬ w.op = 2 := ⟨h0, h1, h2⟩
    exact allows_ofMemory (by omega)

namespace Cpu

variable {c c' : Cpu} {f : Footprint} {w : Word}

/-- What the word `w` changes of `c`, and the accesses `l` it makes, in terms of
its fields. -/
structure Framed (c : Cpu) (w : Word) (c' : Cpu) (l : List Access) : Prop where
  flags : c'.psr.icc ≠ c.psr.icc → w.WritesFlags
  mode : c'.psr.s ≠ c.psr.s ∨ c'.psr.et ≠ c.psr.et → w.WritesMode
  rest : c'.psr.ps ≠ c.psr.ps ∨ c'.psr.version ≠ c.psr.version ∨
    c'.psr.reserved ≠ c.psr.reserved → w.WritesRest
  window : c'.psr.cwp ≠ c.psr.cwp → w.WritesWindow
  wim : c'.wim ≠ c.wim → w.WritesWim
  tbr : c'.tbr ≠ c.tbr → w.WritesTbr
  /-- Of the trap base register only bits 31:12 change. -/
  number : c'.tbr % 0x1000 = c.tbr % 0x1000
  y : c'.y ≠ c.y → w.WritesY
  config : c'.config = c.config
  bus : (∃ a ∈ l, a.isWrite) → w.WritesBus
  size : c'.regs.size = c.regs.size
  /-- A place of the file other than that of register 0 changes only if a target
  lies there, seen from the window that is current afterwards. -/
  file : ∀ i, i ≠ 0 → c'.regs[i]? ≠ c.regs[i]? → ∃ r ∈ w.targets, i = c'.index r

/-- What stays within a footprint is framed by every word that allows it. -/
theorem Within.framed (h : Within f c.clearZero c') (hw : w.Allows f) {l : List Access}
    (hl : ∀ a ∈ l, a.isWrite → f.bus = true) : Framed c w c' l := by
  have hset : ∀ b : Bool, ∀ p : Prop, (b = false → ¬ p) → p → b = true := fun b p hb hp =>
    (Bool.eq_false_or_eq_true b).resolve_right fun hfalse => hb hfalse hp
  constructor
  case flags => exact fun hne => hw.flags (hset _ _ (fun hb hne => hne (h.icc hb)) hne)
  case mode =>
    refine fun hne => hw.mode (hset _ _ (fun hb hne => ?_) hne)
    exact hne.elim (fun hne => hne (h.s hb)) fun hne => hne (h.et hb)
  case rest =>
    refine fun hne => hw.rest (hset _ _ (fun hb hne => ?_) hne)
    rcases hne with hne | hne | hne
    · exact hne (h.ps hb)
    · exact hne (h.version hb)
    · exact hne (h.reserved hb)
  case window => exact fun hne => hw.window (hset _ _ (fun hb hne => hne (h.cwp hb)) hne)
  case wim => exact fun hne => hw.wim (hset _ _ (fun hb hne => hne (h.wim hb)) hne)
  case tbr => exact fun hne => hw.tbr (hset _ _ (fun hb hne => hne (h.tbr hb)) hne)
  case number => exact h.number
  case y => exact fun hne => hw.y (hset _ _ (fun hb hne => hne (h.y hb)) hne)
  case config => exact h.config
  case bus => exact fun ⟨a, ha, hwrite⟩ => hw.bus (hl a ha hwrite)
  case size => exact h.size.trans Array.size_setIfInBounds
  case file =>
    intro i hi hne
    have hclear : c.clearZero.regs[i]? = c.regs[i]? := Array.getElem?_setIfInBounds_ne (Ne.symm hi)
    rw [← hclear] at hne
    obtain ⟨r, hr, rfl⟩ := h.file i hne
    exact ⟨r, hw.regs hr, rfl⟩

/-- The end of an instruction moves the program counters at most. -/
theorem Within.outcome (h : Within f c c') : Within f c c'.outcome.2 := by
  unfold Cpu.outcome
  split
  · exact h
  · exact h.congr rfl rfl rfl rfl rfl rfl

/-- A step that dispatches a word is framed by it. -/
theorem framed_step (hp : c.pendingTrap = none) (ha : c.pendingAnnul = false) :
    c.step.Always fun l r => ∀ word rest, l = .read c.pc (.ok word) :: rest →
      Framed c word r.2 l := by
  refine always_step ?_ ?_ ?_ ?_ ?_ ?_
  · rintro - word rest ⟨⟩
  · rintro e - word rest ⟨⟩
  · rintro word t - ht
    rw [hp] at ht
    cases ht
  · rintro word - - hannul
    rw [ha] at hannul
    cases hannul
  · rintro word - - - - word' rest ⟨⟩
    refine (Within.refl _ c.clearZero).framed (Instr.allows_ofWord word) ?_
    exact List.forall_mem_singleton.mpr nofun
  · intro word _ _ _ _
    have hwithin := within_execute c.clearZero (Instr.ofWord word)
    have hquiet := quiet_execute c.clearZero (Instr.ofWord word)
    refine (hwithin.and hquiet).mono ?_
    rintro l c₁ ⟨hw, hq⟩ word' rest ⟨⟩
    refine hw.outcome.framed (Instr.allows_ofWord word) ?_
    exact List.forall_mem_cons.mpr ⟨nofun, hq⟩

end Cpu

/-- **What a word may change.** Let a word be fetched with no trap pending and no
skip owed. Whatever the processor and the bus hold, and however the step ends, it
changes the flags, the mode, the rest of the state register, the window, the
other state registers and the file, and it writes to the bus, only if the fields
of the word say so. The configuration never changes. -/
theorem frame_law {σ : Type} {c : Cpu} (hp : c.pendingTrap = none) (ha : c.pendingAnnul = false)
    (bus : Bus σ) (s : σ) {w : Word} (hf : c.fetched bus s = some w) :
    c.Framed w (c.step.hold bus s).1.2 (c.step.transcript bus s) :=
  (Cpu.framed_step hp ha).hold bus s w _ (Cpu.step_of_fetched hp hf).2

/-- A bus that answers every read with `save %g0, 7, %i0`. -/
def saveBus : Bus Unit where
  read _ s := (.ok 0xb1e02007, s)
  write addr _ s := (.error (.outOfRange addr), s)

/-- In front of a save into a valid window. -/
def beforeSave : Cpu := { resetTwo with wim := 0 }

/-- A save into the last window: seen from there, `%i0` is at the start of the
ring. -/
theorem frame_law_save_wraps :
    beforeSave.fetched saveBus () = some 0xb1e02007 ∧
      beforeSave.Framed 0xb1e02007 (beforeSave.step.hold saveBus ()).1.2
        (beforeSave.step.transcript saveBus ()) ∧
      (beforeSave.step.hold saveBus ()).1.2 = { beforeSave with
        pc := 4, npc := 8, psr := { Cpu.resetState with cwp := 1 }, regs := beforeSave.regs.set! 8 7 } := by
  have hf : beforeSave.fetched saveBus () = some 0xb1e02007 := by decide
  exact ⟨hf, frame_law rfl rfl saveBus () hf, by decide⟩

end SparcIU
