/-
# What is said in a dialogue

The accesses of a dialogue, each with its answer, make up its transcript.
`Dialogue.Always P d` says that `P` holds of the transcript and the result of
`d` whatever is answered, so what is proved of it holds with every bus
(`Dialogue.Always.hold`). It is proved along the dialogue, one rule for each
way to build one: `map` and `bind`, the accesses of loads and stores, and the
ends that a step can come to. A run goes on by rounds, one equation for each way
a round can end.

Key definitions: `Access`, `Dialogue.transcript`, `Dialogue.Always`.
Key theorems: `Dialogue.Always.hold`, `Dialogue.Always.bind`,
`Cpu.always_readWord`, `Cpu.always_writeWord`, `Cpu.always_step`,
`Cpu.runFrom_completed`, `Cpu.runFrom_delivered`.
-/
import SparcIU.Execution.Run

namespace SparcIU

/-- One access to the bus, with its answer. -/
inductive Access where
  | read (addr : Word) (answer : Except Fault Word)
  | write (addr value : Word) (answer : Except Fault Unit)

/-- Where a word was stored, and which: only by a write that is not refused. -/
def Access.stored : Access → Option (Word × Word)
  | read _ _ => none
  | write addr v (.ok ()) => some (addr, v)
  | write _ _ (.error _) => none

/-- The word a read brought in: none if it is refused. -/
def Access.loaded : Access → Option Word
  | read _ (.ok w) => some w
  | read _ (.error _) => none
  | write _ _ _ => none

/-- The words a row of accesses stored, in order. -/
def stores (l : List Access) : List (Word × Word) := l.filterMap Access.stored

namespace Dialogue

variable {σ α β γ : Type}

/-- The accesses of a dialogue held with a bus. -/
def transcript (bus : Bus σ) : Dialogue α → σ → List Access
  | done _, _ => []
  | read addr next, s =>
    .read addr (bus.read addr s).1
      :: (next (bus.read addr s).1).transcript bus (bus.read addr s).2
  | write addr v next, s =>
    .write addr v (bus.write addr v s).1
      :: (next (bus.write addr v s).1).transcript bus (bus.write addr v s).2
  | remark r rest, s => rest.transcript bus (bus.hear r s)

/-- Whatever is answered, the dialogue ends with a transcript and a result that
satisfy `P`. -/
def Always (P : List Access → α → Prop) : Dialogue α → Prop
  | done a => P [] a
  | read addr next => ∀ answer, (next answer).Always fun l a => P (.read addr answer :: l) a
  | write addr v next => ∀ answer, (next answer).Always fun l a => P (.write addr v answer :: l) a
  | remark _ rest => rest.Always P

@[simp] theorem always_remark {P : List Access → α → Prop} {r : Remark} {d : Dialogue α} :
    (remark r d).Always P ↔ d.Always P := Iff.rfl

theorem Always.mono {P Q : List Access → α → Prop} {d : Dialogue α} (h : d.Always P)
    (hPQ : ∀ l a, P l a → Q l a) : d.Always Q := by
  induction d generalizing P Q with
  | done a => exact hPQ _ _ h
  | read addr next ih => exact fun answer => ih answer (h answer) fun l a => hPQ _ a
  | write addr v next ih => exact fun answer => ih answer (h answer) fun l a => hPQ _ a
  | remark r rest ih => exact ih h hPQ

theorem Always.and {P Q : List Access → α → Prop} {d : Dialogue α} (h : d.Always P)
    (h' : d.Always Q) : d.Always fun l a => P l a ∧ Q l a := by
  induction d generalizing P Q with
  | done a => exact ⟨h, h'⟩
  | read addr next ih => exact fun answer => ih answer (h answer) (h' answer)
  | write addr v next ih => exact fun answer => ih answer (h answer) (h' answer)
  | remark r rest ih => exact ih h h'

/-- What holds of every dialogue's end holds of a dialogue held with any bus. -/
theorem Always.hold {P : List Access → α → Prop} {d : Dialogue α} (h : d.Always P)
    (bus : Bus σ) (s : σ) : P (d.transcript bus s) (d.hold bus s).1 := by
  induction d generalizing P s with
  | done a => exact h
  | read addr next ih => exact ih _ (h _) _
  | write addr v next ih => exact ih _ (h _) _
  | remark r rest ih => exact ih h _

/-! ### Dialogues one after the other -/

theorem Always.map {P : List Access → β → Prop} {f : α → β} {d : Dialogue α}
    (h : d.Always fun l a => P l (f a)) : (d.map f).Always P := by
  induction d generalizing P with
  | done a => exact h
  | read addr next ih => exact fun answer => ih answer (h answer)
  | write addr v next ih => exact fun answer => ih answer (h answer)
  | remark r rest ih => exact ih h

/-- The transcript of two dialogues is the one's and then the other's. -/
theorem Always.bind {P : List Access → β → Prop} {f : α → Dialogue β} {d : Dialogue α}
    (h : d.Always fun l a => (f a).Always fun l' b => P (l ++ l') b) : (d.bind f).Always P := by
  induction d generalizing P with
  | done a => exact h
  | read addr next ih => exact fun answer => ih answer (h answer)
  | write addr v next ih => exact fun answer => ih answer (h answer)
  | remark r rest ih => exact ih h

theorem hold_map (bus : Bus σ) (f : α → β) (d : Dialogue α) (s : σ) :
    (d.map f).hold bus s = (f (d.hold bus s).1, (d.hold bus s).2) := by
  induction d generalizing s with
  | done a => rfl
  | read addr next ih => exact ih _ _
  | write addr v next ih => exact ih _ _
  | remark r rest ih => exact ih _

theorem transcript_map (bus : Bus σ) (f : α → β) (d : Dialogue α) (s : σ) :
    (d.map f).transcript bus s = d.transcript bus s := by
  induction d generalizing s with
  | done a => rfl
  | read addr next ih => exact congrArg _ (ih _ _)
  | write addr v next ih => exact congrArg _ (ih _ _)
  | remark r rest ih => exact ih _

theorem hold_bind (bus : Bus σ) (f : α → Dialogue β) (d : Dialogue α) (s : σ) :
    (d.bind f).hold bus s = (f (d.hold bus s).1).hold bus (d.hold bus s).2 := by
  induction d generalizing s with
  | done a => rfl
  | read addr next ih => exact ih _ _
  | write addr v next ih => exact ih _ _
  | remark r rest ih => exact ih _

theorem transcript_bind (bus : Bus σ) (f : α → Dialogue β) (d : Dialogue α) (s : σ) :
    (d.bind f).transcript bus s =
      d.transcript bus s ++ (f (d.hold bus s).1).transcript bus (d.hold bus s).2 := by
  induction d generalizing s with
  | done a => rfl
  | read addr next ih => exact congrArg _ (ih _ _)
  | write addr v next ih => exact congrArg _ (ih _ _)
  | remark r rest ih => exact ih _

theorem map_map (f : α → β) (g : β → γ) (d : Dialogue α) :
    (d.map f).map g = d.map fun a => g (f a) := by
  induction d with
  | done a => rfl
  | read addr next ih => exact congrArg (read addr) (funext ih)
  | write addr v next ih => exact congrArg (write addr v) (funext ih)
  | remark r rest ih => exact congrArg (remark r) ih

theorem map_bind (f : α → β) (g : β → Dialogue γ) (d : Dialogue α) :
    (d.map f).bind g = d.bind fun a => g (f a) := by
  induction d with
  | done a => rfl
  | read addr next ih => exact congrArg (read addr) (funext ih)
  | write addr v next ih => exact congrArg (write addr v) (funext ih)
  | remark r rest ih => exact congrArg (remark r) ih

theorem bind_map (f : α → Dialogue β) (g : β → γ) (d : Dialogue α) :
    (d.bind f).map g = d.bind fun a => (f a).map g := by
  induction d with
  | done a => rfl
  | read addr next ih => exact congrArg (read addr) (funext ih)
  | write addr v next ih => exact congrArg (write addr v) (funext ih)
  | remark r rest ih => exact congrArg (remark r) ih

/-- What follows matters only at the results a dialogue can come to. -/
theorem Always.bind_congr {f g : α → Dialogue β} {d : Dialogue α}
    (h : d.Always fun _ a => f a = g a) : d.bind f = d.bind g := by
  induction d with
  | done a => exact h
  | read addr next ih => exact congrArg (read addr) (funext fun answer => ih answer (h answer))
  | write addr v next ih => exact congrArg (write addr v) (funext fun answer => ih answer (h answer))
  | remark r rest ih => exact congrArg (remark r) (ih h)

end Dialogue

/-! ### Loads, stores and steps -/

namespace Cpu

theorem always_readWord {P : List Access → Cpu → Prop} {c : Cpu} {addr : Word}
    {next : Cpu → Word → Dialogue Cpu}
    (hok : ∀ w, addr.isAligned → (next c w).Always fun l a => P (.read addr (.ok w) :: l) a)
    (hfail : ∀ e, addr.isAligned → P [.read addr (.error e)] (c.raise .dataAccess))
    (hmis : ¬ addr.isAligned → P [] (c.raise .dataAccess)) : (c.readWord addr next).Always P := by
  unfold readWord
  split
  · rename_i ha
    intro answer
    cases answer with
    | ok w => exact hok w ha
    | error e => exact hfail e ha
  · exact hmis ‹_›

theorem always_writeWord {P : List Access → Cpu → Prop} {c : Cpu} {addr v : Word}
    {next : Cpu → Dialogue Cpu}
    (hok : addr.isAligned → (next c).Always fun l a => P (.write addr v (.ok ()) :: l) a)
    (hfail : ∀ e, addr.isAligned → P [.write addr v (.error e)] (c.raise .dataAccess))
    (hmis : ¬ addr.isAligned → P [] (c.raise .dataAccess)) : (c.writeWord addr v next).Always P := by
  unfold writeWord
  split
  · rename_i ha
    intro answer
    cases answer with
    | ok _ => exact hok ha
    | error e => exact hfail e ha
  · exact hmis ‹_›

/-- What register settings and a data access trap keep, a load keeps. -/
theorem always_load {P : Cpu → Prop} (hset : ∀ c r v, P c → P (c.set r v))
    (hraise : ∀ c, P c → P (c.raise .dataAccess)) {c : Cpu} (h : P c) (kind : LoadKind) (addr : Word)
    (rd : Reg) : (c.load kind addr rd).Always fun _ c' => P c' := by
  have hread : ∀ {c : Cpu} {addr : Word} {next : Cpu → Word → Dialogue Cpu}, P c →
      (∀ w, (next c w).Always fun _ c' => P c') → (c.readWord addr next).Always fun _ c' => P c' :=
    fun h hnext => always_readWord (fun w _ => hnext w) (fun _ _ => hraise _ h) fun _ => hraise _ h
  cases kind with
  | word | unsignedByte | unsignedHalf | signedByte | signedHalf =>
    simp only [load]
    exact hread h fun w => hset _ _ _ h
  | double =>
    simp only [load]
    refine hread h fun high => ?_
    have hhigh := hset c (evenOf rd) high h
    exact hread hhigh fun low => hset _ _ _ hhigh
  | testAndSet =>
    simp only [load]
    refine hread h fun w => ?_
    have hloaded := hset c rd (w.byte addr.lane).toUInt32 h
    exact always_writeWord (fun _ => hloaded) (fun _ _ => hraise _ hloaded) fun _ => hraise _ hloaded

/-- What a data access trap keeps, a store keeps. -/
theorem always_store {P : Cpu → Prop} (hraise : ∀ c, P c → P (c.raise .dataAccess)) {c : Cpu} (h : P c)
    (kind : StoreKind) (addr : Word) (rd : Reg) :
    (c.store kind addr rd).Always fun _ c' => P c' := by
  have hwrite : ∀ {addr v : Word} {next : Cpu → Dialogue Cpu},
      ((next c).Always fun _ c' => P c') → (c.writeWord addr v next).Always fun _ c' => P c' :=
    fun hnext => always_writeWord (fun _ => hnext) (fun _ _ => hraise _ h) fun _ => hraise _ h
  cases kind with
  | word =>
    simp only [store]
    exact hwrite h
  | byte | half =>
    simp only [store]
    exact always_readWord (fun w _ => hwrite h) (fun _ _ => hraise _ h) fun _ => hraise _ h
  | double =>
    simp only [store]
    exact hwrite (hwrite h)

/-- How an executed instruction ends the step: in the trap it left pending, or
with the next instruction at the program counter. -/
def outcome (c : Cpu) : StepResult × Cpu :=
  match c.pendingTrap with
  | some t => (.trapped (c.report t), c)
  | none => (.completed, c.advance)

theorem always_retire {P : List Access → StepResult × Cpu → Prop} {c : Cpu}
    (h : P [] c.outcome) : c.retire.Always P := by
  unfold outcome at h
  unfold retire
  split at h <;> simp_all [Dialogue.Always]

/-- A step ends in one of six ways: two failed fetches, a trap that was pending
before, an annulled slot, an unknown word, or an instruction and its outcome. -/
theorem always_step {P : List Access → StepResult × Cpu → Prop} {c : Cpu}
    (hmis : ¬ c.pc.isAligned →
      P [] (.trapped (c.report .instructionAccess), c.raise .instructionAccess))
    (hfail : ∀ e, c.pc.isAligned → P [.read c.pc (.error e)]
      (.trapped (c.report .instructionAccess), c.raise .instructionAccess))
    (hpend : ∀ word t, c.pc.isAligned → c.pendingTrap = some t →
      P [.read c.pc (.ok word)] (.trapped (c.report t), c))
    (hannul : ∀ word, c.pc.isAligned → c.pendingTrap = none → c.pendingAnnul →
      P [.read c.pc (.ok word)] (.completed, { c.clearZero with pendingAnnul := false }.advance))
    (hunknown : ∀ word, c.pc.isAligned → c.pendingTrap = none → ¬ c.pendingAnnul →
      ¬ (Instr.ofWord word).implemented →
      P [.read c.pc (.ok word)] (.unimplemented word, c.clearZero))
    (hexec : ∀ word, c.pc.isAligned → c.pendingTrap = none → ¬ c.pendingAnnul →
      (Instr.ofWord word).implemented →
      (c.clearZero.execute (Instr.ofWord word)).Always fun l c' =>
        P (.read c.pc (.ok word) :: l) c'.outcome) : c.step.Always P := by
  unfold step
  split
  · rename_i ha
    intro answer
    cases answer with
    | error e => exact hfail e ha
    | ok word =>
      cases hp : c.pendingTrap with
      | some t => exact hpend word t ha hp
      | none =>
        simp only [take]
        split
        · exact hannul word ha hp ‹_›
        · unfold dispatch
          split
          · refine .bind ((hexec word ha hp ‹_› ‹_›).mono fun l c' h => always_retire ?_)
            simpa using h
          · exact hunknown word ha hp ‹_› ‹_›
  · exact hmis ‹_›

/-! ### Rounds of a run -/

section Rounds

variable {σ : Type} {bus : Bus σ} {stop : Nat → σ → Bool} {budget steps asked : Nat}
  {c c₁ c₂ : Cpu} {s s₁ s₂ : σ} {t refused : Trap} {word : Word}

theorem runFrom_stopped (h : stop steps s = true) :
    runFrom bus stop budget steps asked c s = ⟨.stopped, steps, asked + 1, c, s⟩ := by
  cases budget with
  | zero => simp [runFrom, h]
  | succ budget => simp [runFrom, h]

theorem runFrom_completed (h : stop steps s = false)
    (hstep : c.step.hold bus s = ((.completed, c₁), s₁)) :
    runFrom bus stop (budget + 1) steps asked c s =
      runFrom bus stop budget (steps + 1) (asked + 1) c₁ s₁ := by
  simp [runFrom, h, hstep]

theorem runFrom_unimplemented (h : stop steps s = false)
    (hstep : c.step.hold bus s = ((.unimplemented word, c₁), s₁)) :
    runFrom bus stop (budget + 1) steps asked c s =
      ⟨.unimplemented word, steps, asked + 1, c₁, s₁⟩ := by
  simp [runFrom, h, hstep]

theorem runFrom_refused (h : stop steps s = false)
    (hstep : c.step.hold bus s = ((.trapped t, c₁), s₁))
    (hdeliver : c₁.deliver.hold bus s₁ = ((some refused, c₂), s₂)) :
    runFrom bus stop (budget + 1) steps asked c s =
      ⟨.trapped refused, steps, asked + 1, c₂, s₂⟩ := by
  simp [runFrom, h, hstep, hdeliver]

theorem runFrom_delivered (h : stop steps s = false)
    (hstep : c.step.hold bus s = ((.trapped t, c₁), s₁))
    (hdeliver : c₁.deliver.hold bus s₁ = ((none, c₂), s₂)) :
    runFrom bus stop (budget + 1) steps asked c s =
      runFrom bus stop budget (steps + 1) (asked + 1) c₂ (bus.hear (.delivered steps t) s₂) := by
  simp [runFrom, h, hstep, hdeliver]

end Rounds

end Cpu
end SparcIU
