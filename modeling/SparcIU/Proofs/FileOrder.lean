/-
# The byte order of files plays no part in execution

A configuration names the byte order of the files a processor comes from, its images
and records. No instruction, no delivery and no run reads it: with another order they
do the same and leave the same, but for the order itself (`Cpu.run_withOrder`).

Key definitions: `Cpu.withOrder`.
Key theorems: `Cpu.operate_withOrder`, `Cpu.step_withOrder`, `Cpu.deliver_withOrder`,
`Cpu.run_withOrder`.
-/
import SparcIU.Proofs.Budgets

namespace SparcIU
namespace Cpu

/-- The processor with another byte order for its files. -/
def withOrder (o : ByteOrder) (c : Cpu) : Cpu :=
  { c with config := { c.config with order := o } }

variable (o : ByteOrder) (c : Cpu)

/-! ### Instructions -/

@[simp] theorem withOrder_pc : (c.withOrder o).pc = c.pc := rfl

@[simp] theorem withOrder_psr : (c.withOrder o).psr = c.psr := rfl

@[simp] theorem withOrder_y : (c.withOrder o).y = c.y := rfl

@[simp] theorem withOrder_pendingTrap : (c.withOrder o).pendingTrap = c.pendingTrap := rfl

@[simp] theorem withOrder_trapMode : (c.withOrder o).config.trapMode = c.config.trapMode := rfl

@[simp] theorem withOrder_get (r : Reg) : (c.withOrder o).get r = c.get r := rfl

@[simp] theorem withOrder_operand (src : Operand) :
    (c.withOrder o).operand src = c.operand src := by
  cases src <;> rfl

@[simp] theorem withOrder_sum (rs1 : Reg) (src : Operand) :
    (c.withOrder o).sum rs1 src = c.sum rs1 src := by
  simp only [sum, withOrder_get, withOrder_operand]

theorem ite_withOrder (p : Prop) [Decidable p] (c' : Cpu) :
    (if p then c else c').withOrder o = if p then c.withOrder o else c'.withOrder o :=
  apply_ite ..

theorem set_withOrder (r : Reg) (v : Word) : (c.withOrder o).set r v = (c.set r v).withOrder o := by
  simp only [set, ite_withOrder]
  rfl

theorem finish_withOrder (rd : Reg) (v : Word) (setsIcc : Bool) (f : Icc) :
    (c.withOrder o).finish rd v setsIcc f = (c.finish rd v setsIcc f).withOrder o := by
  simp only [finish, set_withOrder, ite_withOrder]
  rfl

theorem link_withOrder (rd : Reg) (target : Word) :
    (c.withOrder o).link rd target = (c.link rd target).withOrder o := by
  simp only [link, withOrder_pc, set_withOrder]
  rfl

theorem divide_withOrder (signed setsIcc : Bool) (rs1 : Reg) (src : Operand) (rd : Reg) :
    (c.withOrder o).divide signed setsIcc rs1 src rd =
      (c.divide signed setsIcc rs1 src rd).withOrder o := by
  simp only [divide, withOrder_y, withOrder_get, withOrder_operand]
  cases Arith.quotient signed c.y (c.get rs1) (c.operand src) with
  | none => rfl
  | some q => exact finish_withOrder ..

theorem supervised_withOrder {f : Cpu → Cpu} (h : f (c.withOrder o) = (f c).withOrder o) :
    (c.withOrder o).supervised f = (c.supervised f).withOrder o := by
  simp only [supervised, h, ite_withOrder]
  rfl

theorem stateValue_withOrder (r : StateReg) : (c.withOrder o).stateValue r = c.stateValue r := by
  cases r <;> rfl

theorem setState_withOrder (r : StateReg) (v : Word) :
    (c.withOrder o).setState r v = (c.setState r v).withOrder o := by
  cases r with
  | psr =>
    simp only [setState, ite_withOrder]
    rfl
  | y | wim | tbr => rfl

theorem moveWindow_withOrder (t : Turn) (rs1 : Reg) (src : Operand) (rd : Reg) :
    (c.withOrder o).moveWindow t rs1 src rd = (c.moveWindow t rs1 src rd).withOrder o := by
  simp only [moveWindow, withOrder_sum, ite_withOrder, ← set_withOrder]
  rfl

theorem returnFromTrap_withOrder (rs1 : Reg) (src : Operand) :
    (c.withOrder o).returnFromTrap rs1 src = (c.returnFromTrap rs1 src).withOrder o := by
  simp only [returnFromTrap, withOrder_sum, ite_withOrder]
  rfl

theorem branch_withOrder (cond : Cond) (annul : Bool) (offset : Word) :
    (c.withOrder o).branch cond annul offset = (c.branch cond annul offset).withOrder o := by
  cases h : cond.holds c.psr.icc <;>
    simp only [branch, withOrder_psr, h, Bool.false_eq_true, if_false, if_true, ite_withOrder] <;>
    rfl

theorem trapIf_withOrder (cond : Cond) (rs1 : Reg) (src : Operand) :
    (c.withOrder o).trapIf cond rs1 src = (c.trapIf cond rs1 src).withOrder o := by
  simp only [trapIf, withOrder_sum, ite_withOrder]
  rfl

/-- An instruction that does not use the bus does the same with any order. -/
theorem operate_withOrder (i : Instr) :
    (c.withOrder o).operate i = (c.operate i).withOrder o := by
  cases i with
  | sethi v rd => exact set_withOrder ..
  | shift op rs1 src rd =>
    simp only [operate, withOrder_get, withOrder_operand]
    exact set_withOrder ..
  | branch cond annul offset => exact branch_withOrder ..
  | call offset => exact link_withOrder ..
  | jmpl rs1 src rd =>
    simp only [operate, withOrder_sum]
    exact link_withOrder ..
  | alu op setsIcc rs1 src rd =>
    simp only [operate, alu, withOrder_get, withOrder_operand]
    exact finish_withOrder ..
  | mul signed setsIcc rs1 src rd =>
    simp only [operate, multiply, withOrder_get, withOrder_operand]
    generalize Arith.product signed (c.get rs1) (c.operand src) = p
    exact finish_withOrder o { c with y := p.1 } rd ..
  | mulscc rs1 src rd =>
    simp only [operate, multiplyStep, withOrder_psr, withOrder_y, withOrder_get, withOrder_operand]
    generalize Arith.mulStep c.psr.icc c.y (c.get rs1) (c.operand src) = p
    exact finish_withOrder o { c with y := p.2.1 } rd ..
  | div signed setsIcc rs1 src rd => exact divide_withOrder ..
  | readState r rd =>
    refine supervised_withOrder o c (f := fun c => c.set rd (c.stateValue r)) ?_
    simp only [stateValue_withOrder, set_withOrder]
  | writeState rs1 src r =>
    refine supervised_withOrder o c (f := fun c => c.setState r (c.get rs1 ^^^ c.operand src)) ?_
    simp only [withOrder_get, withOrder_operand, setState_withOrder]
  | rett rs1 src => exact returnFromTrap_withOrder ..
  | trapIf cond rs1 src => exact trapIf_withOrder ..
  | save rs1 src rd | restore rs1 src rd => exact moveWindow_withOrder ..
  | nop | load kind alternate rs1 src rd | store kind rd rs1 src | unknown word => rfl

/-! ### Loads, stores and steps -/

variable {o c}

theorem readWord_withOrder {addr : Word} {next : Cpu → Word → Dialogue Cpu}
    (h : ∀ w, next (c.withOrder o) w = (next c w).map (withOrder o)) :
    (c.withOrder o).readWord addr next = (c.readWord addr next).map (withOrder o) := by
  unfold readWord
  split
  · refine congrArg (Dialogue.read addr) (funext fun answer => ?_)
    cases answer with
    | ok w => exact h w
    | error e => rfl
  · rfl

theorem writeWord_withOrder {addr v : Word} {next : Cpu → Dialogue Cpu}
    (h : next (c.withOrder o) = (next c).map (withOrder o)) :
    (c.withOrder o).writeWord addr v next = (c.writeWord addr v next).map (withOrder o) := by
  unfold writeWord
  split
  · refine congrArg (Dialogue.write addr v) (funext fun answer => ?_)
    cases answer with
    | ok _ => exact h
    | error e => rfl
  · rfl

variable (o c)

theorem load_withOrder (kind : LoadKind) (addr : Word) (rd : Reg) :
    (c.withOrder o).load kind addr rd = (c.load kind addr rd).map (withOrder o) := by
  have hset : ∀ r v, Dialogue.done ((c.withOrder o).set r v) =
      (Dialogue.done (c.set r v)).map (withOrder o) := fun r v => congrArg _ (set_withOrder ..)
  cases kind with
  | word | signedByte | unsignedByte | signedHalf | unsignedHalf =>
    simp only [load]
    exact readWord_withOrder fun w => hset ..
  | double =>
    simp only [load]
    refine readWord_withOrder fun high => ?_
    simp only [set_withOrder]
    refine readWord_withOrder fun low => ?_
    simp only [set_withOrder]
    rfl
  | testAndSet =>
    simp only [load]
    refine readWord_withOrder fun w => ?_
    simp only [set_withOrder]
    exact writeWord_withOrder rfl

theorem store_withOrder (kind : StoreKind) (addr : Word) (rd : Reg) :
    (c.withOrder o).store kind addr rd = (c.store kind addr rd).map (withOrder o) := by
  unfold store
  cases kind with
  | word => exact writeWord_withOrder rfl
  | byte | half =>
    refine readWord_withOrder fun w => ?_
    exact writeWord_withOrder rfl
  | double =>
    refine writeWord_withOrder ?_
    exact writeWord_withOrder rfl

theorem execute_withOrder (i : Instr) :
    (c.withOrder o).execute i = (c.execute i).map (withOrder o) := by
  cases i with
  | load kind alternate rs1 src rd =>
    simp only [execute, withOrder_sum]
    exact load_withOrder ..
  | store kind rd rs1 src =>
    simp only [execute, withOrder_sum]
    exact store_withOrder ..
  | _ => exact congrArg _ (operate_withOrder ..)

/-- The end of a step or a delivery with another order. -/
def endWithOrder {ρ : Type} (x : ρ × Cpu) : ρ × Cpu := (x.1, x.2.withOrder o)

theorem retire_withOrder : (c.withOrder o).retire = c.retire.map (endWithOrder o) := by
  simp only [retire, withOrder_pendingTrap]
  split <;> rfl

theorem dispatch_withOrder (word : Word) (i : Instr) :
    (c.withOrder o).dispatch word i = (c.dispatch word i).map (endWithOrder o) := by
  unfold dispatch
  split
  · rw [execute_withOrder, Dialogue.map_bind, Dialogue.bind_map]
    exact congrArg _ (funext fun c' => retire_withOrder o c')
  · rfl

theorem take_withOrder (word : Word) :
    (c.withOrder o).take word = (c.take word).map (endWithOrder o) := by
  simp only [take, apply_ite (Dialogue.map (endWithOrder o)), Dialogue.map, ← dispatch_withOrder]
  rfl

/-- **A step does the same with any order.** -/
theorem step_withOrder : (c.withOrder o).step = c.step.map (endWithOrder o) := by
  simp only [step, apply_ite (Dialogue.map (endWithOrder o)), withOrder_pc]
  congr 1
  refine congrArg (Dialogue.read c.pc) (funext fun answer => ?_)
  cases answer with
  | ok word =>
    simp only [withOrder_pendingTrap]
    cases c.pendingTrap with
    | some t => rfl
    | none => exact take_withOrder ..
  | error e => rfl

/-! ### Deliveries and runs -/

theorem enterTrap_withOrder (t : TrapKind) :
    (c.withOrder o).enterTrap t = (c.enterTrap t).withOrder o := by
  let c₁ : Cpu := { c with psr := { c.psr with ps := c.psr.s, s := true, et := false } }
  have hlinks : (((c₁.rotate .down).withOrder o).set Reg.l1 c.pc).set Reg.l2 c.npc
      = (((c₁.rotate .down).set Reg.l1 c.pc).set Reg.l2 c.npc).withOrder o := by
    rw [set_withOrder, set_withOrder]
  exact congrArg (fun d : Cpu => { d with tbr := (c.enterTrap t).tbr }) hlinks

theorem storeWindow_withOrder (addr : Word) (rs : List Reg) :
    (c.withOrder o).storeWindow addr rs = (c.storeWindow addr rs).map (withOrder o) := by
  induction rs generalizing addr with
  | nil => rfl
  | cons r rs ih =>
    refine congrArg (Dialogue.write addr (c.get r)) (funext fun answer => ?_)
    cases answer with
    | ok _ => exact ih (addr + 4)
    | error e => exact congrArg (Dialogue.remark _) (ih (addr + 4))

theorem loadWindow_withOrder (addr : Word) (rs : List Reg) :
    (c.withOrder o).loadWindow addr rs = (c.loadWindow addr rs).map (withOrder o) := by
  induction rs generalizing c addr with
  | nil => rfl
  | cons r rs ih =>
    refine congrArg (Dialogue.read addr) (funext fun answer => ?_)
    cases answer with
    | ok v =>
      simp only [set_withOrder]
      exact ih (c.set r v) (addr + 4)
    | error e => exact congrArg (Dialogue.remark _) (ih c (addr + 4))

/-- A change that keeps the order commutes with it, also behind a dialogue. -/
theorem map_withOrder {d d' : Dialogue Cpu} {f f' : Cpu → Cpu} (hd : d' = d.map (withOrder o))
    (hf : ∀ c, f' (c.withOrder o) = (f c).withOrder o) :
    d'.map f' = (d.map f).map (withOrder o) := by
  rw [hd, Dialogue.map_map, Dialogue.map_map]
  exact congrArg (fun g => d.map g) (funext hf)

theorem spill_withOrder : (c.withOrder o).spill = c.spill.map (withOrder o) := by
  refine map_withOrder o (f := fun x => { x.rotate .up with wim := c.markDown }) ?_ fun _ => rfl
  rw [apply_ite (Dialogue.map (withOrder o)), ← storeWindow_withOrder]
  rfl

theorem fill_withOrder : (c.withOrder o).fill = c.fill.map (withOrder o) := by
  refine map_withOrder o
    (f := fun x => { (x.rotate .down).rotate .down with wim := c.markUp }) ?_ fun _ => rfl
  rw [apply_ite (Dialogue.map (withOrder o)), ← loadWindow_withOrder]
  rfl

theorem serve_withOrder (r : Routine) :
    (c.withOrder o).serve r = (c.serve r).map (withOrder o) := by
  cases r with
  | vector => rfl
  | spill => exact map_withOrder o (spill_withOrder o c) fun _ => rfl
  | fill => exact map_withOrder o (fill_withOrder o c) fun _ => rfl

/-- **A delivery does the same with any order.** -/
theorem deliver_withOrder : (c.withOrder o).deliver = c.deliver.map (endWithOrder o) := by
  simp only [deliver, withOrder_pendingTrap, withOrder_trapMode]
  cases c.pendingTrap with
  | none => rfl
  | some t =>
    simp only
    cases c.config.trapMode.routine t with
    | none => rfl
    | some routine =>
      simp only [enterTrap_withOrder, serve_withOrder, Dialogue.map, Dialogue.map_map]
      rfl

variable {σ : Type}

/-- The result of a run with another order. -/
def resultWithOrder (r : RunResult σ) : RunResult σ := { r with cpu := r.cpu.withOrder o }

theorem round_withOrder (bus : Bus σ) (steps : Nat) (s : σ) :
    (c.withOrder o).round bus steps s =
      ((c.round bus steps s).1, (c.round bus steps s).2.1.withOrder o,
        (c.round bus steps s).2.2) := by
  unfold round
  rw [step_withOrder, Dialogue.hold_map]
  rcases c.step.hold bus s with ⟨⟨result, c₁⟩, s₁⟩
  cases result with
  | completed | unimplemented word => rfl
  | trapped t =>
    simp only [endWithOrder, deliver_withOrder, Dialogue.hold_map]
    rcases c₁.deliver.hold bus s₁ with ⟨⟨refused, c₂⟩, s₂⟩
    cases refused <;> rfl

/-- **A run does the same with any order**, round by round. -/
theorem runFrom_withOrder (bus : Bus σ) (stop : Nat → σ → Bool) (budget steps asked : Nat)
    (s : σ) :
    runFrom bus stop budget steps asked (c.withOrder o) s =
      resultWithOrder o (runFrom bus stop budget steps asked c s) := by
  refine runFrom_rounds (P := fun budget steps asked c s r =>
    runFrom bus stop budget steps asked (c.withOrder o) s = resultWithOrder o r) ?_ ?_ ?_ ?_
    budget steps asked c s
  · intro budget steps asked c s hstop
    exact runFrom_stopped hstop
  · intro steps asked c s hgo
    exact runFrom_spent hgo
  · intro budget steps asked c s e c' s' hgo hround
    refine runFrom_ends hgo ?_
    rw [round_withOrder, hround]
  · intro budget steps asked c s c' s' r hgo hround ih
    refine (runFrom_goes hgo ?_).trans ih
    rw [round_withOrder, hround]

theorem run_withOrder (bus : Bus σ) (stop : Nat → σ → Bool) (budget : Nat) (s : σ) :
    (c.withOrder o).run bus stop budget s = resultWithOrder o (c.run bus stop budget s) :=
  runFrom_withOrder ..

end Cpu
end SparcIU
