/-
# Runs that end in a trap

A run ends in a trap only if its delivery is refused, and only internal deliveries refuse
one, that of any trap but the two of the windows (`TrapMode.routine_eq_none_iff`). The
refusal comes before anything is changed or asked, so the trap is left pending, with the
program counters it reports (`Cpu.Refuses`). From there every run does the same again: it
fetches, finds the trap and is refused (`Cpu.Refuses.run`).

Key definitions: `Cpu.Refuses`.
Key theorems: `Cpu.always_step_trapped`, `Cpu.round_trapped`, `Cpu.runFrom_config`,
`Cpu.Refuses.run`, `run_refused`.
-/
import SparcIU.Proofs.Alignment
import SparcIU.Proofs.Budgets
import SparcIU.Proofs.Footprint
import SparcIU.Proofs.PendingTrap

namespace SparcIU

/-- What is refused: with internal traps, all but those of the windows. -/
theorem TrapMode.routine_eq_none_iff {m : TrapMode} {t : TrapKind} :
    m.routine t = none ↔ m = .internal ∧ t ≠ .windowOverflow ∧ t ≠ .windowUnderflow := by
  cases m with
  | vectored => exact iff_of_false nofun nofun
  | internal =>
    cases t with
    | windowOverflow => exact iff_of_false nofun fun h => h.2.1 rfl
    | windowUnderflow => exact iff_of_false nofun fun h => h.2.2 rfl
    | _ => exact iff_of_true rfl ⟨rfl, nofun, nofun⟩

namespace Cpu

variable {σ : Type} {bus : Bus σ} {stop : Nat → σ → Bool} {steps : Nat} {c c' : Cpu} {s s' : σ}
  {t : Trap}

/-! ### Refused deliveries -/

/-- The trap `t` is pending in `c` at its program counters, and its delivery is refused:
it asks nothing and changes nothing. -/
structure Refuses (c : Cpu) (t : Trap) : Prop where
  mode : c.config.trapMode = .internal
  kind : t.kind ≠ .windowOverflow ∧ t.kind ≠ .windowUnderflow
  pending : c.pendingTrap = some t.kind
  pc : c.pc = t.pc
  npc : c.npc = t.npc
  deliver : c.deliver = .done (some t, c)

theorem refuses_of_pending {k : TrapKind} (hp : c.pendingTrap = some k)
    (hnone : c.config.trapMode.routine k = none) : c.Refuses (c.report k) := by
  obtain ⟨hmode, hkind⟩ := TrapMode.routine_eq_none_iff.mp hnone
  refine ⟨hmode, hkind, hp, rfl, rfl, ?_⟩
  unfold Cpu.deliver
  rw [hp]
  simp only [hnone]

/-- A step that ends in a trap leaves it pending and reports the program counters it
leaves, whatever was pending before. -/
theorem always_step_trapped (c : Cpu) : c.step.Always fun _ r => ∀ t c', r = (.trapped t, c') →
    c'.pendingTrap = some t.kind ∧ t = c'.report t.kind := by
  refine always_step ?_ ?_ ?_ ?_ ?_ ?_
  · rintro - t c' ⟨⟩
    exact ⟨rfl, rfl⟩
  · rintro e - t c' ⟨⟩
    exact ⟨rfl, rfl⟩
  · rintro word k - hp t c' ⟨⟩
    exact ⟨hp, rfl⟩
  · rintro word - - - t c' ⟨⟩
  · rintro word - - - - t c' ⟨⟩
  · intro word _ _ _ _
    refine (within_execute c.clearZero _).mono fun l c₁ _ t c' h => ?_
    unfold outcome at h
    split at h
    · rename_i k hk
      cases h
      exact ⟨hk, rfl⟩
    · cases h

/-- A round that ends a run in a trap: the step traps, and the delivery is refused. -/
theorem round_trapped (h : round bus steps c s = (some (.trapped t), c', s')) :
    c.step.hold bus s = ((.trapped t, c'), s') ∧ c'.Refuses t := by
  unfold round at h
  split at h
  · cases h
  · cases h
  · rename_i t₀ c₁ s₁ hstep
    split at h
    · rename_i refused c₂ s₂ hdeliver
      cases h
      obtain ⟨hp, ht₀⟩ := (always_step_trapped c).hold bus s t₀ c₁ (congrArg Prod.fst hstep)
      have hdelivers := (always_deliver_pending hp).hold bus s₁
      rw [hdeliver] at hdelivers
      obtain ⟨hnone, ht, -⟩ := hdelivers
      have hrefuses : c₁.Refuses t := by
        rw [ht]
        exact refuses_of_pending hp hnone
      rw [hrefuses.deliver] at hdeliver
      cases hdeliver
      obtain rfl : t₀ = t := ht₀.trans ht.symm
      exact ⟨hstep, hrefuses⟩
    · cases h

/-! ### The configuration -/

theorem always_step_config (c : Cpu) : c.step.Always fun _ r => r.2.config = c.config := by
  refine always_step (fun _ => rfl) (fun _ _ => rfl) (fun _ _ _ _ => rfl) (fun _ _ _ _ => rfl)
    (fun _ _ _ _ _ => rfl) ?_
  intro word _ _ _ _
  exact (within_execute c.clearZero _).mono fun l c' h => h.outcome.config

theorem always_deliver_config (c : Cpu) : c.deliver.Always fun _ r => r.2.config = c.config := by
  refine always_deliver rfl (fun _ => rfl) fun t routine => ?_
  exact always_serve (P := fun c' => c'.config = c.config)
    (fun c' r v h => (set_config c' r v).trans h) (fun _ _ h => h) (fun _ _ h => h) (fun _ h => h)
    (resumes_enterTrap c t).config routine

/-- No run changes the configuration. -/
theorem runFrom_config (budget steps asked : Nat) (c : Cpu) (s : σ) :
    (runFrom bus stop budget steps asked c s).cpu.config = c.config :=
  runFrom_keeps (P := fun c' => c'.config = c.config)
    (fun c' s h => ((always_step_config c').hold bus s).trans h)
    (fun c' s h => ((always_deliver_config c').hold bus s).trans h) budget steps asked s rfl

/-! ### The same end again -/

/-- **A refused trap is refused again.** A run that starts where a delivery was refused
fetches once and ends in the same trap. -/
theorem Refuses.run (h : c.Refuses t) {word : Word} (ha : c.pc.isAligned)
    (hread : (bus.read c.pc s).1 = .ok word) (hstop : stop 0 s = false) (budget : Nat) :
    c.run bus stop (budget + 1) s = ⟨.trapped t, 0, 1, c, (bus.read c.pc s).2⟩ := by
  have hreport : c.report t.kind = t := by
    unfold report
    rw [h.pc, h.npc]
  have hstep : c.step.hold bus s = ((.trapped t, c), (bus.read c.pc s).2) := by
    unfold step
    rw [if_pos ha]
    simp only [Dialogue.hold, hread, h.pending, hreport]
  refine runFrom_refused hstop hstep ?_
  rw [h.deliver]
  rfl

end Cpu

/-- **How a run ends in a trap.** With vectored traps no run does. With internal traps it
is a trap of none of the two window kinds; it is left pending, and the program counters
are those it reports. It was raised or found by the step of the last round, and its
delivery, which was refused, asked nothing and changed nothing. As long as the word at hand
can be fetched, every further run that is not told to stop at once and has a round to
take ends in the same trap and changes nothing. -/
theorem run_refused {σ : Type} (c : Cpu) (bus : Bus σ) (stop : Nat → σ → Bool) (budget : Nat)
    (s : σ) :
    let r := c.run bus stop budget s
    (c.config.trapMode = .vectored → ∀ t, r.exit ≠ .trapped t) ∧
    ∀ t, r.exit = .trapped t →
      (c.config.trapMode = .internal ∧ t.kind ≠ .windowOverflow ∧ t.kind ≠ .windowUnderflow) ∧
      (r.cpu.pendingTrap = some t.kind ∧ r.cpu.pc = t.pc ∧ r.cpu.npc = t.npc) ∧
      (∃ k < budget, let before := c.run bus stop k s
        before.exit = .budgetSpent ∧ r.steps = k ∧
          before.cpu.step.hold bus before.device = ((.trapped t, r.cpu), r.device)) ∧
      r.cpu.deliver = .done (some t, r.cpu) ∧
      ∀ {τ : Type} (bus' : Bus τ) (stop' : Nat → τ → Bool) (budget' : Nat) (s' : τ) (word : Word),
        r.cpu.pc.isAligned → (bus'.read r.cpu.pc s').1 = .ok word → 0 < budget' →
        stop' 0 s' = false →
        r.cpu.run bus' stop' budget' s' =
          ⟨.trapped t, 0, 1, r.cpu, (bus'.read r.cpu.pc s').2⟩ := by
  intro r
  have hconfig : r.cpu.config = c.config := Cpu.runFrom_config budget 0 0 c s
  have hlast : ∀ t, r.exit = .trapped t → r.cpu.Refuses t ∧ ∃ k < budget,
      let before := c.run bus stop k s
      before.exit = .budgetSpent ∧ r.steps = k ∧
        before.cpu.step.hold bus before.device = ((.trapped t, r.cpu), r.device) := by
    intro t ht
    have hspent : r.exit ≠ .budgetSpent := by rw [ht]; exact nofun
    have hstopped : r.exit ≠ .stopped := by rw [ht]; exact nofun
    obtain ⟨k, hk, hbefore, hsteps, hround⟩ := Cpu.runFrom_last budget 0 0 c s hspent hstopped
    rw [show (Cpu.runFrom bus stop budget 0 0 c s).exit = .trapped t from ht] at hround
    obtain ⟨hstep, hrefuses⟩ := Cpu.round_trapped hround
    exact ⟨hrefuses, k, hk, hbefore, hsteps.trans (Nat.zero_add k), hstep⟩
  refine ⟨fun hmode t ht => ?_, fun t ht => ?_⟩
  · have hinternal := (hlast t ht).1.mode
    rw [hconfig, hmode] at hinternal
    cases hinternal
  · obtain ⟨hrefuses, hbefore⟩ := hlast t ht
    refine ⟨⟨hconfig ▸ hrefuses.mode, hrefuses.kind⟩,
      ⟨hrefuses.pending, hrefuses.pc, hrefuses.npc⟩, hbefore, hrefuses.deliver, ?_⟩
    intro τ bus' stop' budget' s' word ha hread hpos hstop
    obtain ⟨n, rfl⟩ := Nat.exists_eq_succ_of_ne_zero (Nat.ne_of_gt hpos)
    exact hrefuses.run ha hread hstop n

/-- A bus with `or %g0, 5, %g1` at 0 and `udiv %g1, %g0, %g2` behind it. -/
def divideBus : Bus Unit where
  read addr s := (.ok (if addr = 0 then 0x82102005 else 0x84704000), s)
  write addr _ s := (.error (.outOfRange addr), s)

/-- A division by zero in the second round ends the run, and every further one. -/
theorem run_refused_division :
    let t : Trap := ⟨.divisionByZero, 4, 8⟩
    let r := internalTwo.run divideBus (fun _ _ => false) 9 ()
    r.exit = .trapped t ∧ r.steps = 1 ∧ r.cpu.pendingTrap = some .divisionByZero ∧
      r.cpu.deliver = .done (some t, r.cpu) ∧
      r.cpu.run divideBus (fun _ _ => false) 3 () = ⟨.trapped t, 0, 1, r.cpu, ()⟩ := by
  intro t r
  have hexit : r.exit = .trapped t := by decide
  have hpc : r.cpu.pc.isAligned := by decide
  obtain ⟨-, hends⟩ := run_refused internalTwo divideBus (fun _ _ => false) 9 ()
  obtain ⟨-, ⟨hpending, -⟩, -, hdeliver, hagain⟩ := hends t hexit
  exact ⟨hexit, by decide, hpending, hdeliver, hagain divideBus _ 3 () _ hpc rfl (by decide) rfl⟩

end SparcIU
