/-
# Retrying ends

A save or a restore into an invalid window traps, the service moves the marks,
and the instruction is tried again (`Cpu.retried`). Every attempt either passes
or comes back to the same instruction with the marks one window on
(`Cpu.Again`), and the marks clear the window in front after at most one turn
around the ring. So the instruction completes after at most as many deliveries
as there are windows, whatever mask it starts with, and a run with that many
rounds and one more goes past it.

Key definitions: `Instr.turn`, `Cpu.Ready`, `Cpu.Again`, `Cpu.Passes`,
`Cpu.retried`.
Key theorems: `Cpu.always_deliver_window`, `Cpu.Ready.attempt`,
`Cpu.retried_completes`, `Cpu.runFrom_passes`, `retry_terminates`.
-/
import SparcIU.Proofs.Mark
import SparcIU.Proofs.Results
import SparcIU.Proofs.Retry

namespace SparcIU

/-- The way a save or a restore turns; none for other instructions. -/
def Instr.turn : Instr → Option Turn
  | save _ _ _ => some .down
  | restore _ _ _ => some .up
  | _ => none

namespace Cpu

variable {σ : Type} {bus : Bus σ} {stop : Nat → σ → Bool} {s s₁ : σ} {c c' : Cpu} {word : Word}
  {t : Turn} {n : Nat}

/-! ### One attempt -/

/-- Saves and restores move the window and do nothing else. -/
theorem operate_of_turn {i : Instr} (hi : i.turn = some t) :
    i.implemented ∧ (∀ c : Cpu, c.execute i = .done (c.operate i)) ∧
      ∃ rs1 src rd, ∀ c : Cpu, c.operate i = c.moveWindow t rs1 src rd := by
  cases i with
  | save rs1 src rd =>
    obtain rfl : Turn.down = t := Option.some.inj hi
    exact ⟨rfl, fun _ => rfl, rs1, src, rd, fun _ => rfl⟩
  | restore rs1 src rd =>
    obtain rfl : Turn.up = t := Option.some.inj hi
    exact ⟨rfl, fun _ => rfl, rs1, src, rd, fun _ => rfl⟩
  | _ => cases hi

/-- A processor in internal mode that has nothing to do but the instruction at
its program counter. -/
structure Ready (c : Cpu) : Prop extends Shaped c where
  mode : c.config.trapMode = .internal
  aligned : c.pc.isAligned
  trap : c.pendingTrap = none
  annul : c.pendingAnnul = false
  target : c.branchTarget = none

/-- `c'` has moved to the next window, and control is one instruction on. -/
structure Passes (c : Cpu) (t : Turn) (c' : Cpu) : Prop where
  pc : c'.pc = c.npc
  npc : c'.npc = c.npc + 4
  cwp : c'.cwp = c.neighbour t

/-- `c'` is about to try the instruction of `c` again, with the marks one window
on. -/
structure Again (c : Cpu) (t : Turn) (c' : Cpu) : Prop extends Ready c' where
  config : c'.config = c.config
  pc : c'.pc = c.pc
  npc : c'.npc = c.npc
  cwp : c'.cwp = c.cwp
  wim : c'.wim = c.moveMark t

/-- Both window traps are served alike. -/
theorem always_deliver_window (h : c.Shaped) (hmode : c.config.trapMode = .internal)
    (hp : c.pendingTrap = some (windowTrap t)) : c.deliver.Always fun _ r =>
      r.1 = none ∧ Served c r.2 ∧ r.2.Shaped ∧ r.2.wim = c.moveMark t := by
  cases t with
  | down =>
    refine (always_deliver_overflow h hmode hp).mono ?_
    rintro l r ⟨hnone, hs, hwim, hregs, -⟩
    exact ⟨hnone, hs, hs.shaped_overflow h hregs, hwim⟩
  | up =>
    refine (always_deliver_underflow h hmode hp).mono ?_
    rintro l r ⟨hnone, hs, hwim, hregs⟩
    exact ⟨hnone, hs, hs.shaped_underflow h hregs, hwim⟩

theorem passes_advance (h : c.Shaped) (htarget : c.branchTarget = none) (t : Turn) (rd : Reg)
    (v : Word) : c.Passes t ((c.clearZero.setCwp (c.neighbour t)).set rd v).advance := by
  refine ⟨set_npc .., ?_, (set_cwp ..).trans (rotate_cwp h t)⟩
  have hnpc : ((c.clearZero.setCwp (c.neighbour t)).set rd v).npc = c.npc := set_npc ..
  have hnone : ((c.clearZero.setCwp (c.neighbour t)).set rd v).branchTarget = none :=
    (set_branchTarget ..).trans htarget
  unfold advance
  rw [hnpc, hnone]
  rfl

/-- **An attempt.** If the next window is clear it passes, and else its trap is
served and the instruction is tried again. -/
theorem Ready.attempt (h : c.Ready) (hread : (bus.read c.pc s).1 = .ok word)
    (hi : (Instr.ofWord word).turn = some t) :
    (¬ c.isInvalid (c.neighbour t) →
      ∃ c', (c.step.hold bus s).1 = (.completed, c') ∧ c.Passes t c') ∧
    (c.isInvalid (c.neighbour t) → ∃ trap c₁, (c.step.hold bus s).1 = (.trapped trap, c₁) ∧
      ∀ s₁, ∃ c₂, (c₁.deliver.hold bus s₁).1 = (none, c₂) ∧ c.Again t c₂) := by
  obtain ⟨hreal, hexec, rs1, src, rd, hmove⟩ := operate_of_turn hi
  have hf : c.fetched bus s = some word := fetched_eq_some.mpr ⟨h.aligned, hread⟩
  have hstep := step_operates h.trap h.annul hf rfl hreal hexec
  have hnext : c.clearZero.neighbour t = c.neighbour t := rfl
  have hinvalid : c.clearZero.isInvalid (c.neighbour t) = c.isInvalid (c.neighbour t) := rfl
  rw [hmove] at hstep
  refine ⟨fun hclear => ?_, fun hm => ?_⟩
  · have hnone : ∀ v, ((c.clearZero.setCwp (c.neighbour t)).set rd v).pendingTrap = none :=
      fun v => (set_pendingTrap ..).trans h.trap
    rw [moveWindow_of_clear (by rwa [hnext, hinvalid]), hnext, outcome_completed (hnone _)] at hstep
    exact ⟨_, hstep, passes_advance h.toShaped h.target ..⟩
  · rw [moveWindow_of_invalid (by rwa [hnext, hinvalid])] at hstep
    refine ⟨_, _, hstep, fun s₁ => ?_⟩
    have hshaped : (c.clearZero.raise (windowTrap t)).Shaped :=
      h.toShaped.clearZero.congr rfl rfl h.cwp_lt
    obtain ⟨hnone, hs, hshaped₂, hwim⟩ := (always_deliver_window hshaped h.mode rfl).hold bus s₁
    refine ⟨_, Prod.ext hnone rfl, ⟨hshaped₂, ?_, ?_, hs.trap, ?_, ?_⟩, hs.config, hs.pc, hs.npc,
      hs.cwp, hwim⟩
    · rw [hs.config]
      exact h.mode
    · rw [hs.pc]
      exact h.aligned
    · exact hs.annul.trans h.annul
    · exact hs.target.trans h.target

/-- What a service leaves is some mark, and none of a window that does not exist. -/
theorem Again.marks (h : c.Shaped) (ha : c.Again t c') :
    c'.wim ≠ 0 ∧ ∀ w, c.windows ≤ w → c'.wim.toNat.testBit w = false := by
  rw [ha.wim]
  refine ⟨moveMark_ne_zero h t, fun w hw => ?_⟩
  have hclear := isInvalid_moveMark_of_le h t hw
  rwa [isInvalid_eq_testBit] at hclear

theorem Passes.of_again {c₂ : Cpu} (ha : c.Again t c₂) (h : c₂.Passes t c') : c.Passes t c' :=
  ⟨h.pc.trans ha.npc, by rw [h.npc, ha.npc],
    h.cwp.trans (neighbour_congr ha.config ha.cwp t)⟩

/-- The next attempt is one service nearer. -/
theorem Again.clearsIn {c₂ : Cpu} (ha : c.Again t c₂) (hm : c.isInvalid (c.neighbour t))
    (hn : ClearsIn t (n + 1) c) : ClearsIn t n c₂ :=
  (hn.resolve_left fun hclear => hclear hm).congr ha.config ha.cwp ha.wim

/-! ### All attempts -/

/-- Steps and the deliveries of their traps in turn, `n` deliveries at most. The
device is in state `s k` before step `k` and in state `s' k` before the delivery
of its trap. The result is what each delivery left, and what the last step or a
refused delivery came to. -/
def retried (bus : Bus σ) : Nat → (Nat → σ) → (Nat → σ) → Cpu → List Cpu × StepResult × Cpu
  | 0, s, _, c => ([], (c.step.hold bus (s 0)).1)
  | n + 1, s, s', c =>
    match (c.step.hold bus (s 0)).1 with
    | (.trapped _, c₁) =>
      match (c₁.deliver.hold bus (s' 0)).1 with
      | (none, c₂) =>
        match retried bus n (fun k => s (k + 1)) (fun k => s' (k + 1)) c₂ with
        | (cs, r) => (c₂ :: cs, r)
      | (some refused, c₂) => ([], .trapped refused, c₂)
    | r => ([], r)

section Retried

variable {s s' : Nat → σ} {c₁ c₂ : Cpu} {trap : Trap}

theorem retried_of_completed (hstep : (c.step.hold bus (s 0)).1 = (.completed, c')) (n : Nat) :
    retried bus n s s' c = ([], .completed, c') := by
  cases n with
  | zero => simp only [retried, hstep]
  | succ n => simp only [retried, hstep]

theorem retried_of_delivered (hstep : (c.step.hold bus (s 0)).1 = (.trapped trap, c₁))
    (hdeliver : (c₁.deliver.hold bus (s' 0)).1 = (none, c₂)) (n : Nat) :
    retried bus (n + 1) s s' c =
      (c₂ :: (retried bus n (fun k => s (k + 1)) (fun k => s' (k + 1)) c₂).1,
        (retried bus n (fun k => s (k + 1)) (fun k => s' (k + 1)) c₂).2) := by
  simp only [retried, hstep, hdeliver]

end Retried

/-- If `n` services clear the next window, `n` deliveries are enough. -/
theorem retried_completes (hi : (Instr.ofWord word).turn = some t) (h : c.Ready)
    (hn : ClearsIn t n c) (s s' : Nat → σ) (hread : ∀ k, (bus.read c.pc (s k)).1 = .ok word) :
    ∃ cs c', retried bus n s s' c = (cs, .completed, c') ∧ cs.length ≤ n ∧ c.Passes t c' ∧
      ∀ d ∈ cs, d.wim ≠ 0 ∧ ∀ w, c.windows ≤ w → d.wim.toNat.testBit w = false := by
  have hpassing : ∀ {n : Nat} {c : Cpu} {s s' : Nat → σ}, c.Ready →
      (bus.read c.pc (s 0)).1 = .ok word → ¬ c.isInvalid (c.neighbour t) →
      ∃ c', retried bus n s s' c = ([], .completed, c') ∧ c.Passes t c' := by
    intro n c s s' h hread hclear
    obtain ⟨c', hstep, hpasses⟩ := (h.attempt hread hi).1 hclear
    exact ⟨c', retried_of_completed hstep n, hpasses⟩
  induction n generalizing c s s' with
  | zero =>
    obtain ⟨c', hend, hpasses⟩ := hpassing h (hread 0) hn
    exact ⟨[], c', hend, Nat.le_refl 0, hpasses, List.forall_mem_nil _⟩
  | succ n ih =>
    by_cases hm : c.isInvalid (c.neighbour t)
    · obtain ⟨trap, c₁, hstep, hdeliver⟩ := (h.attempt (hread 0) hi).2 hm
      obtain ⟨c₂, hnone, ha⟩ := hdeliver (s' 0)
      have hread₂ : ∀ k, (bus.read c₂.pc (s (k + 1))).1 = .ok word := by
        intro k
        rw [ha.pc]
        exact hread (k + 1)
      have hwindows : c₂.windows = c.windows := by rw [windows, ha.config]
      obtain ⟨cs, c', hrest, hlength, hpasses, hmarks⟩ :=
        ih ha.toReady (ha.clearsIn hm hn) (fun k => s (k + 1)) (fun k => s' (k + 1)) hread₂
      rw [hwindows] at hmarks
      refine ⟨c₂ :: cs, c', ?_, Nat.succ_le_succ hlength, .of_again ha hpasses, ?_⟩
      · rw [retried_of_delivered hstep hnone, hrest]
      · exact List.forall_mem_cons.mpr ⟨ha.marks h.toShaped, hmarks⟩
    · obtain ⟨c', hend, hpasses⟩ := hpassing h (hread 0) hm
      exact ⟨[], c', hend, Nat.zero_le _, hpasses, List.forall_mem_nil _⟩

/-- A run that is not told to stop goes past the instruction. -/
theorem runFrom_passes (hi : (Instr.ofWord word).turn = some t) (h : c.Ready)
    (hn : ClearsIn t n c) {budget steps asked : Nat} {s : σ} (hbudget : n < budget)
    (hread : ∀ k ≤ n, (bus.read c.pc (runFrom bus stop k steps asked c s).device).1 = .ok word)
    (hgo : (runFrom bus stop budget steps asked c s).exit ≠ .stopped) :
    ∃ k ≤ n, ∃ c' s', c.Passes t c' ∧ runFrom bus stop budget steps asked c s =
      runFrom bus stop (budget - (k + 1)) (steps + (k + 1)) (asked + (k + 1)) c' s' := by
  have hgoes : ∀ {budget steps asked : Nat} {c : Cpu} {s : σ},
      (runFrom bus stop budget steps asked c s).exit ≠ .stopped → stop steps s = false := by
    intro budget steps asked c s hgo
    refine Bool.eq_false_iff.mpr fun hstop => hgo ?_
    rw [runFrom_stopped hstop]
  have hpassing : ∀ {budget steps asked : Nat} {c : Cpu} {s : σ}, c.Ready → 0 < budget →
      (bus.read c.pc s).1 = .ok word → ¬ c.isInvalid (c.neighbour t) →
      (runFrom bus stop budget steps asked c s).exit ≠ .stopped →
      ∃ c' s', c.Passes t c' ∧ runFrom bus stop budget steps asked c s =
        runFrom bus stop (budget - 1) (steps + 1) (asked + 1) c' s' := by
    intro budget steps asked c s h hbudget hread hclear hgo
    obtain ⟨c', hstep, hpasses⟩ := (h.attempt hread hi).1 hclear
    refine ⟨c', (c.step.hold bus s).2, hpasses, ?_⟩
    rw [← Nat.sub_add_cancel hbudget]
    exact runFrom_completed (hgoes hgo) (Prod.ext hstep rfl)
  induction n generalizing c s budget steps asked with
  | zero =>
    obtain ⟨c', s', hpasses, hrun⟩ := hpassing h hbudget (hread 0 (Nat.le_refl 0)) hn hgo
    exact ⟨0, Nat.le_refl 0, c', s', hpasses, hrun⟩
  | succ n ih =>
    by_cases hm : c.isInvalid (c.neighbour t)
    · obtain ⟨trap, c₁, hstep, hdeliver⟩ := (h.attempt (hread 0 (Nat.zero_le _)) hi).2 hm
      let s₁ := (c.step.hold bus s).2
      obtain ⟨c₂, hnone, ha⟩ := hdeliver s₁
      let s₂ := bus.hear (.delivered steps trap) (c₁.deliver.hold bus s₁).2
      -- the run goes on from what the delivery left, whatever its budget
      have hround : ∀ b, runFrom bus stop (b + 1) steps asked c s =
          runFrom bus stop b (steps + 1) (asked + 1) c₂ s₂ := fun b =>
        runFrom_delivered (hgoes hgo) (Prod.ext hstep rfl) (Prod.ext hnone rfl)
      obtain ⟨b, rfl⟩ : ∃ b, budget = b + 1 := ⟨budget - 1, by omega⟩
      have hread₂ : ∀ k ≤ n,
          (bus.read c₂.pc (runFrom bus stop k (steps + 1) (asked + 1) c₂ s₂).device).1 =
            .ok word := by
        intro k hk
        rw [ha.pc, ← hround]
        exact hread (k + 1) (Nat.succ_le_succ hk)
      rw [hround] at hgo ⊢
      obtain ⟨k, hk, c', s', hpasses, hrun⟩ :=
        ih ha.toReady (ha.clearsIn hm hn) (Nat.lt_of_succ_lt_succ hbudget) hread₂ hgo
      refine ⟨k + 1, Nat.succ_le_succ hk, c', s', .of_again ha hpasses, ?_⟩
      rw [hrun, Nat.add_sub_add_right, Nat.add_assoc steps, Nat.add_assoc asked, Nat.add_comm 1]
    · obtain ⟨c', s', hpasses, hrun⟩ :=
        hpassing h (Nat.zero_lt_of_lt hbudget) (hread 0 (Nat.zero_le _)) hm hgo
      exact ⟨0, Nat.zero_le _, c', s', hpasses, hrun⟩

end Cpu

/-- **Retrying ends.** Let a save or a restore be at the program counter in
internal mode, with nothing pending and whatever mask. If each fetch of it
succeeds, steps and deliveries in turn complete it after at most as many
deliveries as there are windows, whatever else the bus answers and whatever is
done to the device on the way. After each delivery the mask is not zero and has
no bit for a window that does not exist. So a run that is not told to stop goes
past the instruction if its budget has one round more than there are windows. -/
theorem retry_terminates {σ : Type} {c : Cpu} {word : Word} {t : Turn} (h : c.Ready)
    (hi : (Instr.ofWord word).turn = some t) (bus : Bus σ) :
    (∀ s s' : Nat → σ, (∀ k, (bus.read c.pc (s k)).1 = .ok word) →
      ∃ cs c', Cpu.retried bus c.windows s s' c = (cs, .completed, c') ∧ cs.length ≤ c.windows ∧
        c.Passes t c' ∧
        ∀ d ∈ cs, d.wim ≠ 0 ∧ ∀ w, c.windows ≤ w → d.wim.toNat.testBit w = false) ∧
    ∀ (stop : Nat → σ → Bool) (budget : Nat) (s : σ), c.windows + 1 ≤ budget →
      (∀ k ≤ c.windows, (bus.read c.pc (Cpu.run bus stop k c s).device).1 = .ok word) →
      (Cpu.run bus stop budget c s).exit ≠ .stopped →
      ∃ k ≤ c.windows, ∃ c' s', c.Passes t c' ∧ Cpu.run bus stop budget c s =
        Cpu.runFrom bus stop (budget - (k + 1)) (k + 1) (k + 1) c' s' := by
  have hclears := Cpu.clearsIn_windows h.toShaped t
  refine ⟨fun s s' hread => Cpu.retried_completes hi h hclears s s' hread, ?_⟩
  intro stop budget s hbudget hread hgo
  unfold Cpu.run at hread hgo ⊢
  have hpasses := Cpu.runFrom_passes hi h hclears hbudget hread hgo
  simpa only [Nat.zero_add] using hpasses

/-- Three windows in front of a save into the first of them, with every bit of the mask set. -/
def allInvalid : Cpu := { threeWindows.setCwp 1 with wim := 0xffffffff }

/-- The marks move down twice and leave the first window with the third service. -/
theorem retry_terminates_all_invalid :
    allInvalid.Ready ∧ (Instr.ofWord 0xb1e02007).turn = some .down ∧
      ∃ cs c', Cpu.retried saveBus 3 (fun _ => ()) (fun _ => ()) allInvalid = (cs, .completed, c') ∧
        cs.map Cpu.wim = [3, 1, 4] ∧ c'.pc = 4 ∧ c'.cwp = 0 := by
  have hready : allInvalid.Ready :=
    ⟨⟨by decide, by decide, by decide, by decide⟩, rfl, by decide, rfl, rfl, rfl⟩
  have hturn : (Instr.ofWord 0xb1e02007).turn = some .down := by decide
  obtain ⟨hretried, -⟩ := retry_terminates hready hturn saveBus
  obtain ⟨cs, c', hend, -, hpasses, -⟩ := hretried (fun _ => ()) (fun _ => ()) fun _ => rfl
  have hmarks : (Cpu.retried saveBus 3 (fun _ => ()) (fun _ => ()) allInvalid).1.map Cpu.wim =
      [3, 1, 4] := by decide +kernel
  refine ⟨hready, hturn, cs, c', hend, ?_, hpasses.pc, hpasses.cwp⟩
  rwa [show Cpu.retried saveBus 3 _ _ allInvalid = (cs, .completed, c') from hend] at hmarks
end SparcIU
