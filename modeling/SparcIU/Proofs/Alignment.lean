/-
# The addresses the bus is asked for

A bus is promised multiples of four. A fetch, a load and a store look at the
address before they ask, and raise a trap if it is misaligned; the second access
of a pair is as aligned as the first. So a step keeps the promise in every state
(`Cpu.aligned_step`). A spill and a fill do not look: they go from the stack
pointer of a window on, and keep the promise exactly if that is aligned
(`Cpu.aligned_deliver`). Over a run, all depends on the stack pointers of the
windows that are moved on the way (`Cpu.aligned_runFrom`).

Key definitions: `Aligned`, `Cpu.servedStack`, `Bus.logged`, `Throughout`.
Key theorems: `Cpu.aligned_step`, `Cpu.aligned_deliver`, `Dialogue.hold_logged`,
`Cpu.aligned_runFrom`, `aligned_accesses_iff`, `misaligned_fill`.
-/
import SparcIU.Proofs.Reachable
import SparcIU.Proofs.WorkingMemory

namespace SparcIU

/-- The address of an access. -/
def Access.addr : Access → Word
  | read addr _ => addr
  | write addr _ _ => addr

/-- All accesses are at multiples of four. -/
def Aligned (l : List Access) : Prop := ∀ a ∈ l, a.addr.isAligned

theorem aligned_nil : Aligned [] := fun _ h => absurd h List.not_mem_nil

theorem aligned_cons {a : Access} {l : List Access} :
    Aligned (a :: l) ↔ a.addr.isAligned ∧ Aligned l := List.forall_mem_cons

theorem aligned_append {l l' : List Access} : Aligned (l ++ l') ↔ Aligned l ∧ Aligned l' :=
  List.forall_mem_append

namespace Cpu

open Window

variable {c : Cpu}

/-! ### Steps -/

theorem aligned_readWord {addr : Word} {next : Cpu → Word → Dialogue Cpu}
    (h : ∀ w, (next c w).Always fun l _ => Aligned l) :
    (c.readWord addr next).Always fun l _ => Aligned l := by
  refine always_readWord (fun w ha => (h w).mono fun l _ hl => ?_) (fun e ha => ?_) fun _ => aligned_nil
  · exact aligned_cons.mpr ⟨ha, hl⟩
  · exact aligned_cons.mpr ⟨ha, aligned_nil⟩

theorem aligned_writeWord {addr v : Word} {next : Cpu → Dialogue Cpu}
    (h : (next c).Always fun l _ => Aligned l) :
    (c.writeWord addr v next).Always fun l _ => Aligned l := by
  refine always_writeWord (fun ha => h.mono fun l _ hl => ?_) (fun e ha => ?_) fun _ => aligned_nil
  · exact aligned_cons.mpr ⟨ha, hl⟩
  · exact aligned_cons.mpr ⟨ha, aligned_nil⟩

theorem aligned_load (c : Cpu) (kind : LoadKind) (addr : Word) (rd : Reg) :
    (c.load kind addr rd).Always fun l _ => Aligned l := by
  cases kind with
  | word | unsignedByte | unsignedHalf | signedByte | signedHalf =>
    simp only [load]
    exact aligned_readWord fun w => aligned_nil
  | double =>
    simp only [load]
    exact aligned_readWord fun high => aligned_readWord fun low => aligned_nil
  | testAndSet =>
    simp only [load]
    exact aligned_readWord fun w => aligned_writeWord aligned_nil

theorem aligned_store (c : Cpu) (kind : StoreKind) (addr : Word) (rd : Reg) :
    (c.store kind addr rd).Always fun l _ => Aligned l := by
  cases kind with
  | word =>
    simp only [store]
    exact aligned_writeWord aligned_nil
  | byte | half =>
    simp only [store]
    exact aligned_readWord fun w => aligned_writeWord aligned_nil
  | double =>
    simp only [store]
    exact aligned_writeWord (aligned_writeWord aligned_nil)

theorem aligned_execute (c : Cpu) (i : Instr) : (c.execute i).Always fun l _ => Aligned l := by
  cases i with
  | load kind alternate rs1 src rd => exact aligned_load ..
  | store kind rd rs1 src => exact aligned_store ..
  | _ => exact aligned_nil

/-- **A step asks for aligned words only**, in whatever state. -/
theorem aligned_step (c : Cpu) : c.step.Always fun l _ => Aligned l := by
  have hfetch : ∀ answer, c.pc.isAligned → Aligned [.read c.pc answer] := fun answer ha =>
    aligned_cons.mpr ⟨ha, aligned_nil⟩
  refine always_step (fun _ => aligned_nil) (fun e ha => hfetch _ ha) (fun word t ha _ => hfetch _ ha)
    (fun word ha _ _ => hfetch _ ha) (fun word ha _ _ _ => hfetch _ ha) fun word ha _ _ _ => ?_
  exact (aligned_execute _ _).mono fun l _ hl => aligned_cons.mpr ⟨ha, hl⟩

/-! ### Spills and fills -/

/-- The addresses of a window that is moved are words in a row. -/
theorem addrs_of_asked {l : List Access} {addr : Word} {rs : List Reg} {f : Reg → Option Word}
    (hl : l.map Access.asked = rs.mapIdx fun k r => (slot addr k, f r)) :
    l.map Access.addr = (List.range rs.length).map (slot addr) := by
  have haddr : ∀ a : Access, a.addr = a.asked.1 := by
    intro a
    cases a <;> rfl
  have hmap : l.map Access.addr = (l.map Access.asked).map Prod.fst := by
    rw [List.map_map]
    exact List.map_congr_left fun a _ => haddr a
  rw [hmap, hl]
  refine List.ext_getElem (by simp) fun k _ _ => ?_
  rw [List.getElem_map, List.getElem_mapIdx, List.getElem_map, List.getElem_range]

theorem addrs_storeWindow (c : Cpu) (addr : Word) (rs : List Reg) :
    (c.storeWindow addr rs).Always fun l _ =>
      l.map Access.addr = (List.range rs.length).map (slot addr) :=
  (asked_storeWindow c addr rs).mono fun _ _ hl => addrs_of_asked (f := fun r => some (c.get r)) hl

theorem addrs_loadWindow (c : Cpu) (addr : Word) (rs : List Reg) :
    (c.loadWindow addr rs).Always fun l _ =>
      l.map Access.addr = (List.range rs.length).map (slot addr) :=
  (asked_loadWindow c addr rs).mono fun _ _ hl => addrs_of_asked (f := fun _ => none) hl

/-- The words of a save area are aligned exactly if the first one is. -/
theorem aligned_saveArea {l : List Access} {addr : Word}
    (hl : l.map Access.addr = (List.range Reg.saveArea.length).map (slot addr)) :
    Aligned l ↔ addr.isAligned := by
  have hall : Aligned l ↔ ∀ k < Reg.saveArea.length, (slot addr k).isAligned := by
    have hmap : Aligned l ↔ ∀ a ∈ l.map Access.addr, a.isAligned := by
      rw [List.forall_mem_map, Aligned]
    rw [hmap, hl, List.forall_mem_map]
    simp only [List.mem_range]
  rw [hall]
  constructor
  · intro h
    simpa using h 0 (by decide)
  · exact fun h k _ => isAligned_slot h k

/-! ### Deliveries -/

/-- The stack pointer a delivery goes by: that of the window it spills, two
below the current one, or of the window it fills, the one above. -/
def servedStack (c : Cpu) : Option Word :=
  match c.pendingTrap.bind c.config.trapMode.routine with
  | some .spill => some (c.peek (below c.windows (below c.windows c.cwp)) Reg.sp)
  | some .fill => some (c.peek (above c.windows c.cwp) Reg.sp)
  | some .vector | none => none

theorem servedStack_vectored (hmode : c.config.trapMode = .vectored) : c.servedStack = none := by
  unfold servedStack
  rw [hmode]
  cases c.pendingTrap with
  | none => rfl
  | some t => rfl

/-- Only the two window traps have a window moved. -/
theorem trap_of_routine {m : TrapMode} {t : TrapKind} :
    (m.routine t = some .spill → t = .windowOverflow) ∧
      (m.routine t = some .fill → t = .windowUnderflow) := by
  cases m with
  | vectored => exact ⟨nofun, nofun⟩
  | internal =>
    cases t with
    | windowOverflow => exact ⟨fun _ => rfl, nofun⟩
    | windowUnderflow => exact ⟨nofun, fun _ => rfl⟩
    | _ => exact ⟨nofun, nofun⟩

/-- The accesses `l` of a delivery are aligned if the stack pointer is. -/
def AlignedAs (c : Cpu) (l : List Access) : Prop :=
  Aligned l ↔ ∀ sp, c.servedStack = some sp → sp.isAligned

theorem alignedAs_nil (h : c.servedStack = none) : c.AlignedAs [] := by
  unfold AlignedAs
  rw [h]
  exact iff_of_true aligned_nil (by rintro sp ⟨⟩)

theorem alignedAs_of_stack {l : List Access} {sp : Word} (h : c.servedStack = some sp)
    (hl : Aligned l ↔ sp.isAligned) : c.AlignedAs l := by
  unfold AlignedAs
  rw [h, hl]
  exact ⟨by rintro ha sp ⟨⟩; exact ha, fun hall => hall sp rfl⟩

/-- A routine in `c₁`, the window of the trap, is as aligned as what it goes by. -/
theorem aligned_serve {c₁ : Cpu} {routine : Routine}
    (hvector : routine = .vector → c.servedStack = none)
    (hspill : routine = .spill → c.servedStack = some ((c₁.rotate .down).get Reg.sp))
    (hfill : routine = .fill → c.servedStack = some (((c₁.rotate .up).rotate .up).get Reg.sp)) :
    (c₁.serve routine).Always fun l _ => c.AlignedAs l := by
  cases routine with
  | vector => exact alignedAs_nil (hvector rfl)
  | spill =>
    have hstack := hspill rfl
    simp only [serve, spill]
    refine .map (.map ?_)
    split
    · rename_i h0
      rw [h0] at hstack
      exact alignedAs_of_stack hstack (iff_of_true aligned_nil rfl)
    · exact (addrs_storeWindow ..).mono fun l _ hl => alignedAs_of_stack hstack (aligned_saveArea hl)
  | fill =>
    have hstack := hfill rfl
    simp only [serve, fill]
    refine .map (.map ?_)
    split
    · rename_i h0
      rw [h0] at hstack
      exact alignedAs_of_stack hstack (iff_of_true aligned_nil rfl)
    · exact (addrs_loadWindow ..).mono fun l _ hl => alignedAs_of_stack hstack (aligned_saveArea hl)

/-- **A delivery asks for aligned words exactly if it goes by an aligned stack
pointer**, or by none at all. -/
theorem aligned_deliver (h : c.Shaped) : c.deliver.Always fun l _ => c.AlignedAs l := by
  cases hp : c.pendingTrap with
  | none =>
    unfold deliver
    rw [hp]
    exact alignedAs_nil (by simp [servedStack, hp])
  | some t =>
    cases hroutine : c.config.trapMode.routine t with
    | none =>
      unfold deliver
      simp only [hp, hroutine]
      exact alignedAs_nil (by simp [servedStack, hp, hroutine])
    | some routine =>
      rw [deliver_eq hp hroutine, Dialogue.always_remark]
      refine .map (aligned_serve ?_ ?_ ?_)
      · rintro rfl
        simp [servedStack, hp, hroutine]
      · rintro rfl
        obtain rfl := trap_of_routine.1 hroutine
        show c.servedStack = some (c.belowTrap.get Reg.sp)
        rw [get_belowTrap h fun _ => by decide]
        simp [servedStack, hp, hroutine]
      · rintro rfl
        obtain rfl := trap_of_routine.2 hroutine
        show c.servedStack = some (c.aboveTrap.get Reg.sp)
        rw [get_aboveTrap h fun _ => by decide]
        simp [servedStack, hp, hroutine]

end Cpu

/-! ### Runs -/

section Runs

variable {σ : Type}

/-- The same bus with a log of its accesses. -/
def Bus.logged (bus : Bus σ) : Bus (σ × List Access) where
  read addr x :=
    ((bus.read addr x.1).1, (bus.read addr x.1).2, x.2 ++ [.read addr (bus.read addr x.1).1])
  write addr v x :=
    ((bus.write addr v x.1).1, (bus.write addr v x.1).2, x.2 ++ [.write addr v (bus.write addr v x.1).1])
  hear r x := (bus.hear r x.1, x.2)

/-- A dialogue goes as it did, and the log grows by its transcript. -/
theorem Dialogue.hold_logged {α : Type} (bus : Bus σ) (d : Dialogue α) (s : σ) (l : List Access) :
    d.hold bus.logged (s, l) =
      ((d.hold bus s).1, (d.hold bus s).2, l ++ d.transcript bus s) := by
  induction d generalizing s l with
  | done a => simp [hold, transcript]
  | read addr next ih =>
    simp only [hold, transcript, Bus.logged]
    exact (ih _ _ _).trans (by simp)
  | write addr v next ih =>
    simp only [hold, transcript, Bus.logged]
    exact (ih _ _ _).trans (by simp)
  | remark r rest ih => exact ih _ _

/-- `P` holds where a round of a run begins, which is where the same run comes to
the end of a smaller budget. -/
def Throughout (P : Cpu → σ → Prop) (bus : Bus σ) (stop : Nat → σ → Bool)
    (budget steps asked : Nat) (c : Cpu) (s : σ) : Prop :=
  ∀ k < budget, (Cpu.runFrom bus stop k steps asked c s).exit = .budgetSpent →
    P (Cpu.runFrom bus stop k steps asked c s).cpu (Cpu.runFrom bus stop k steps asked c s).device

/-- The window that the next round moves, if it moves one, has an aligned stack
pointer. -/
def MovesAligned (bus : Bus σ) (c : Cpu) (s : σ) : Prop :=
  ∀ t c₁, (c.step.hold bus s).1 = (.trapped t, c₁) → ∀ sp, c₁.servedStack = some sp → sp.isAligned

namespace Cpu

variable {c : Cpu} {P : Cpu → σ → Prop} {bus : Bus σ} {stop : Nat → σ → Bool}
  {budget steps asked : Nat} {s : σ}

theorem throughout_stopped (h : stop steps s = true) :
    Throughout P bus stop budget steps asked c s := by
  intro k _ hexit
  rw [runFrom_stopped h] at hexit
  cases hexit

theorem throughout_succ (h : stop steps s = false) :
    Throughout P bus stop (budget + 1) steps asked c s ↔ P c s ∧ ∀ k < budget,
      (runFrom bus stop (k + 1) steps asked c s).exit = .budgetSpent →
        P (runFrom bus stop (k + 1) steps asked c s).cpu
          (runFrom bus stop (k + 1) steps asked c s).device := by
  have hzero : runFrom bus stop 0 steps asked c s = ⟨.budgetSpent, steps, asked + 1, c, s⟩ :=
    runFrom_spent h
  constructor
  · intro hall
    have h0 := hall 0 (Nat.succ_pos _)
    rw [hzero] at h0
    exact ⟨h0 rfl, fun k hk => hall (k + 1) (Nat.succ_lt_succ hk)⟩
  · rintro ⟨h0, hrest⟩ k hk
    cases k with
    | zero =>
      rw [hzero]
      exact fun _ => h0
    | succ k => exact hrest k (Nat.lt_of_succ_lt_succ hk)

/-- A round that goes on, and the rest. -/
theorem throughout_goes (h : stop steps s = false) {c' : Cpu} {s' : σ}
    (hgoes : ∀ k, runFrom bus stop (k + 1) steps asked c s =
      runFrom bus stop k (steps + 1) (asked + 1) c' s') :
    Throughout P bus stop (budget + 1) steps asked c s ↔
      P c s ∧ Throughout P bus stop budget (steps + 1) (asked + 1) c' s' := by
  rw [throughout_succ h]
  simp only [hgoes]
  rfl

/-- A round that ends the run. -/
theorem throughout_ends (h : stop steps s = false) {r : RunResult σ}
    (hends : ∀ k, runFrom bus stop (k + 1) steps asked c s = r) (hr : r.exit ≠ .budgetSpent) :
    Throughout P bus stop (budget + 1) steps asked c s ↔ P c s := by
  rw [throughout_succ h]
  simp only [hends]
  exact and_iff_left fun k _ hexit => absurd hexit hr

/-- What a round with a trap needs is what its delivery asks for. -/
theorem movesAligned_iff {t : Trap} {c₁ : Cpu} {s₁ : σ}
    (hstep : c.step.hold bus s = ((.trapped t, c₁), s₁)) (hs₁ : c₁.Sound) :
    MovesAligned bus c s ↔ Aligned (c₁.deliver.transcript bus s₁) := by
  have hdeliver : Aligned (c₁.deliver.transcript bus s₁) ↔
      ∀ sp, c₁.servedStack = some sp → sp.isAligned :=
    (aligned_deliver hs₁.toShaped).hold bus s₁
  rw [hdeliver, MovesAligned, hstep]
  constructor
  · exact fun h => h t c₁ rfl
  · rintro h t' c' ⟨⟩
    exact h

/-- A round without a trap moves no window. -/
theorem movesAligned_of_not_trapped {r : StepResult} {c₁ : Cpu} {s₁ : σ}
    (hstep : c.step.hold bus s = ((r, c₁), s₁)) (hr : ∀ t, r ≠ .trapped t) : MovesAligned bus c s := by
  intro t c' h
  rw [hstep] at h
  exact absurd (congrArg Prod.fst h) (hr t)

/-- **A run asks for aligned words exactly if every window it moves has an
aligned stack pointer.** -/
theorem aligned_runFrom {stop' : Nat → σ × List Access → Bool}
    (hsame : ∀ n s l, stop' n (s, l) = stop n s) (hs : c.Sound) (l : List Access) :
    Aligned (runFrom bus.logged stop' budget steps asked c (s, l)).device.2 ↔
      Aligned l ∧ Throughout (MovesAligned bus) bus stop budget steps asked c s := by
  induction budget generalizing c steps asked s l with
  | zero => exact (and_iff_left fun k hk => absurd hk (Nat.not_lt_zero k)).symm
  | succ budget ih =>
    by_cases hstop : stop steps s = true
    · rw [runFrom_stopped ((hsame ..).trans hstop)]
      exact (and_iff_left (throughout_stopped hstop)).symm
    · have hgo : stop steps s = false := Bool.eq_false_iff.mpr hstop
      have hgo' : stop' steps (s, l) = false := (hsame ..).trans hgo
      have hlog := Dialogue.hold_logged bus c.step s l
      have hkeeps := settles_step hs bus s
      have hl : Aligned (l ++ c.step.transcript bus s) ↔ Aligned l := by
        rw [aligned_append]
        exact and_iff_left ((aligned_step c).hold bus s)
      rcases hstep : c.step.hold bus s with ⟨⟨result, c₁⟩, s₁⟩
      rw [hstep] at hlog hkeeps
      have hs₁ : c₁.Sound := hkeeps.sound hs
      cases result with
      | completed =>
        have hmoves := movesAligned_of_not_trapped hstep nofun
        rw [runFrom_completed hgo' hlog, throughout_goes hgo fun k => runFrom_completed hgo hstep,
          and_iff_right hmoves, ih hs₁, hl]
      | unimplemented word =>
        have hmoves := movesAligned_of_not_trapped hstep nofun
        rw [runFrom_unimplemented hgo' hlog,
          throughout_ends hgo (fun k => runFrom_unimplemented hgo hstep) nofun,
          and_iff_left hmoves, hl]
      | trapped t =>
        have hlog₁ := Dialogue.hold_logged bus c₁.deliver s₁ (l ++ c.step.transcript bus s)
        have hkeeps₁ := settles_deliver hs₁ bus s₁
        have hmoves := movesAligned_iff hstep hs₁
        rcases hdeliver : c₁.deliver.hold bus s₁ with ⟨⟨refused, c₂⟩, s₂⟩
        rw [hdeliver] at hlog₁ hkeeps₁
        cases refused with
        | some refused =>
          rw [runFrom_refused hgo' hlog hlog₁,
            throughout_ends hgo (fun k => runFrom_refused hgo hstep hdeliver) nofun, hmoves,
            aligned_append, hl]
        | none =>
          have hs₂ : c₂.Sound := hkeeps₁.sound hs₁
          rw [runFrom_delivered hgo' hlog hlog₁,
            throughout_goes hgo fun k => runFrom_delivered hgo hstep hdeliver, hmoves, ← and_assoc,
            ← hl, ← aligned_append]
          exact ih hs₂ _

/-- A vectored run moves no window. -/
theorem throughout_vectored (hs : c.Sound) (hmode : c.config.trapMode = .vectored) :
    Throughout (MovesAligned bus) bus stop budget steps asked c s := by
  intro k _ _ t c₁ hstep sp hsp
  have hrun := settles_runFrom hs bus stop k steps asked s
  have hkeeps := settles_step (hrun.sound hs) bus (runFrom bus stop k steps asked c s).device
  rw [hstep] at hkeeps
  have hmode₁ : c₁.config.trapMode = .vectored := by
    rw [hkeeps.config, hrun.config]
    exact hmode
  rw [servedStack_vectored hmode₁] at hsp
  cases hsp

end Cpu

end Runs

/-- **Which addresses are aligned.** In every reachable state a step asks the bus
for multiples of four only. A delivery does exactly if the stack pointer it goes
by is one, and a run exactly if every delivery on the way does. With vectored
traps no delivery goes by a stack pointer. -/
theorem aligned_accesses_iff {σ : Type} {config : Configuration} {c₀ : Cpu}
    (hc : Cpu.ofConfiguration config = .ok c₀) (bus : Bus σ) (s₀ : σ) (calls : List (HostCall σ))
    (s : σ) :
    let c := (HostCall.applyAll bus calls (c₀, s₀)).1
    Aligned (c.step.transcript bus s) ∧
      (Aligned (c.deliver.transcript bus s) ↔ ∀ sp, c.servedStack = some sp → sp.isAligned) ∧
      (∀ (stop : Nat → σ → Bool) budget,
        Aligned (Cpu.run bus.logged (fun n x => stop n x.1) budget c (s, [])).device.2 ↔
          Throughout (MovesAligned bus) bus stop budget 0 0 c s) ∧
      (config.trapMode = .vectored → Aligned (c.deliver.transcript bus s) ∧
        ∀ (stop : Nat → σ → Bool) budget,
          Aligned (Cpu.run bus.logged (fun n x => stop n x.1) budget c (s, [])).device.2) := by
  intro c
  obtain ⟨hconfig, hs⟩ := HostCall.sound_applyAll bus calls (x := (c₀, s₀)) (Cpu.fresh_sound hc)
  have hdeliver : Aligned (c.deliver.transcript bus s) ↔
      ∀ sp, c.servedStack = some sp → sp.isAligned :=
    (Cpu.aligned_deliver hs.toShaped).hold bus s
  have hrun : ∀ (stop : Nat → σ → Bool) budget,
      Aligned (Cpu.run bus.logged (fun n x => stop n x.1) budget c (s, [])).device.2 ↔
        Throughout (MovesAligned bus) bus stop budget 0 0 c s := fun stop budget =>
    (Cpu.aligned_runFrom (fun _ _ _ => rfl) hs []).trans (and_iff_right aligned_nil)
  refine ⟨(Cpu.aligned_step c).hold bus s, hdeliver, hrun, fun hmode => ?_⟩
  have hmode' : c.config.trapMode = .vectored := by
    rw [hconfig, (Cpu.ofConfiguration_ok hc).2]
    exact hmode
  refine ⟨hdeliver.mpr ?_, fun stop budget => (hrun stop budget).mpr ?_⟩
  · rw [Cpu.servedStack_vectored hmode']
    rintro sp ⟨⟩
  · exact Cpu.throughout_vectored hs hmode'

/-- Two windows with internal traps, after a reset. -/
def internalTwo : Cpu := { resetTwo with config := { windows := 2, trapMode := .internal } }

/-- A bus with a word at 0 that sets the frame pointer, `restore %o0, 0, %o0`
behind it, and zero anywhere else. -/
def frameBus (word : Word) : Bus Unit where
  read addr s := (.ok (if addr = 0 then word else if addr = 4 then 0x91ea2000 else 0), s)
  write _ _ s := (.ok (), s)

/-- With `or %g0, 64, %fp` the fill reads sixteen aligned words. -/
theorem aligned_accesses_iff_frame :
    let c := (HostCall.applyAll (frameBus 0xbc102040) [.step, .step] (internalTwo, ())).1
    c.servedStack = some 64 ∧ Aligned (c.deliver.transcript (frameBus 0xbc102040) ()) := by
  intro c
  have hfresh : Cpu.ofConfiguration { windows := 2, trapMode := .internal } = .ok internalTwo := rfl
  have hstack : c.servedStack = some 64 := by decide
  obtain ⟨-, hdeliver, -, -⟩ :=
    aligned_accesses_iff hfresh (frameBus 0xbc102040) () [.step, .step] ()
  refine ⟨hstack, hdeliver.mpr ?_⟩
  intro sp hsp
  obtain rfl := Option.some.inj (hstack.symm.trans hsp)
  rfl

/-- **A misaligned fill.** With `or %g0, 66, %fp` the fill goes by 66. -/
theorem misaligned_fill :
    Cpu.ofConfiguration { windows := 2, trapMode := .internal } = .ok internalTwo ∧
      ∃ a ∈ (Cpu.run (frameBus 0xbc102042).logged (fun _ _ => false) 2 internalTwo ((), [])).device.2,
        ¬ a.addr.isAligned :=
  ⟨rfl, by decide⟩

end SparcIU
