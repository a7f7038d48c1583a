/-
# Runs by rounds

A run goes by rounds: a step, and the delivery of the trap if the step traps
(`Cpu.round`). Whoever repeats such rounds, at most `n` times and as long as nothing tells
it to stop, up to a round that cannot be gone on from, does what a run with a budget of
`n` does (`Drives`, `drives_iff`). So budgets add up: a run that ended before its budget
was spent ends in the same way with any larger one, and a run that spent it goes on as
another run from what it left (`Cpu.runFrom_add`). A run asks whether to stop once more
than it has completed rounds (`Cpu.runFrom_counts`).

All of this is one induction on the budget, with one case for each way a run can start
(`Cpu.runFrom_rounds`); what steps and deliveries keep, runs keep (`Cpu.runFrom_keeps`).

Key definitions: `Cpu.round`, `RunResult.after`, `Drives`.
Key theorems: `Cpu.runFrom_rounds`, `Cpu.runFrom_keeps`, `Cpu.runFrom_counts`,
`Cpu.runFrom_add`, `Cpu.runFrom_last`, `drives_iff`, `budgets_add`.
-/
import SparcIU.Proofs.Transcript

namespace SparcIU

/-- The result of a run that goes on after `k` rounds. -/
def RunResult.after {σ : Type} (r : RunResult σ) (k : Nat) : RunResult σ :=
  { r with steps := k + r.steps, asked := k + r.asked }

namespace Cpu

variable {σ : Type} {bus : Bus σ} {stop : Nat → σ → Bool} {budget steps asked : Nat} {c c' : Cpu}
  {s s' : σ} {e : Exit}

/-! ### Rounds -/

/-- A step with the delivery of its trap. The first part is how a run ends here: at a
refused delivery or at a word that is not implemented, and else not at all. -/
def round (bus : Bus σ) (steps : Nat) (c : Cpu) (s : σ) : Option Exit × Cpu × σ :=
  match c.step.hold bus s with
  | ((.completed, c), s) => (none, c, s)
  | ((.unimplemented word, c), s) => (some (.unimplemented word), c, s)
  | ((.trapped t, c), s) =>
    match c.deliver.hold bus s with
    | ((some refused, c), s) => (some (.trapped refused), c, s)
    | ((none, c), s) => (none, c, bus.hear (.delivered steps t) s)

/-- A run that is not told to stop takes a round. -/
theorem runFrom_succ (h : stop steps s = false) (budget asked : Nat) (c : Cpu) :
    runFrom bus stop (budget + 1) steps asked c s =
      match round bus steps c s with
      | (none, c', s') => runFrom bus stop budget (steps + 1) (asked + 1) c' s'
      | (some e, c', s') => ⟨e, steps, asked + 1, c', s'⟩ := by
  unfold round
  rcases hstep : c.step.hold bus s with ⟨⟨result, c₁⟩, s₁⟩
  cases result with
  | completed => exact runFrom_completed h hstep
  | unimplemented word => exact runFrom_unimplemented h hstep
  | trapped t =>
    simp only
    rcases hdeliver : c₁.deliver.hold bus s₁ with ⟨⟨refused, c₂⟩, s₂⟩
    cases refused with
    | some refused => exact runFrom_refused h hstep hdeliver
    | none => exact runFrom_delivered h hstep hdeliver

theorem runFrom_goes (h : stop steps s = false) (hround : round bus steps c s = (none, c', s')) :
    runFrom bus stop (budget + 1) steps asked c s =
      runFrom bus stop budget (steps + 1) (asked + 1) c' s' := by
  rw [runFrom_succ h, hround]

theorem runFrom_ends (h : stop steps s = false) (hround : round bus steps c s = (some e, c', s')) :
    runFrom bus stop (budget + 1) steps asked c s = ⟨e, steps, asked + 1, c', s'⟩ := by
  rw [runFrom_succ h, hround]

theorem runFrom_spent (h : stop steps s = false) :
    runFrom bus stop 0 steps asked c s = ⟨.budgetSpent, steps, asked + 1, c, s⟩ := by
  simp only [runFrom, h, Bool.false_eq_true, if_false]

/-- A round ends a run at a word or at a trap. -/
theorem round_ends (h : round bus steps c s = (some e, c', s')) :
    e ≠ .budgetSpent ∧ e ≠ .stopped := by
  unfold round at h
  split at h
  · cases h
  · cases h
    exact ⟨nofun, nofun⟩
  · split at h
    · cases h
      exact ⟨nofun, nofun⟩
    · cases h

/-- **A run by its rounds.** It is told to stop at once, or its budget is spent, or a
round ends it, or a round leaves it the rest of its budget. -/
theorem runFrom_rounds {P : Nat → Nat → Nat → Cpu → σ → RunResult σ → Prop}
    (hstopped : ∀ budget steps asked c s, stop steps s = true →
      P budget steps asked c s ⟨.stopped, steps, asked + 1, c, s⟩)
    (hspent : ∀ steps asked c s, stop steps s = false →
      P 0 steps asked c s ⟨.budgetSpent, steps, asked + 1, c, s⟩)
    (hends : ∀ budget steps asked c s e c' s', stop steps s = false →
      round bus steps c s = (some e, c', s') →
      P (budget + 1) steps asked c s ⟨e, steps, asked + 1, c', s'⟩)
    (hgoes : ∀ budget steps asked c s c' s' r, stop steps s = false →
      round bus steps c s = (none, c', s') → P budget (steps + 1) (asked + 1) c' s' r →
      P (budget + 1) steps asked c s r)
    (budget steps asked : Nat) (c : Cpu) (s : σ) :
    P budget steps asked c s (runFrom bus stop budget steps asked c s) := by
  induction budget generalizing steps asked c s with
  | zero =>
    by_cases hstop : stop steps s = true
    · rw [runFrom_stopped hstop]
      exact hstopped _ _ _ _ _ hstop
    · have hgo : stop steps s = false := Bool.eq_false_iff.mpr hstop
      rw [runFrom_spent hgo]
      exact hspent _ _ _ _ hgo
  | succ budget ih =>
    by_cases hstop : stop steps s = true
    · rw [runFrom_stopped hstop]
      exact hstopped _ _ _ _ _ hstop
    · have hgo : stop steps s = false := Bool.eq_false_iff.mpr hstop
      rcases hround : round bus steps c s with ⟨_ | e, c', s'⟩
      · rw [runFrom_goes hgo hround]
        exact hgoes _ _ _ _ _ _ _ _ hgo hround (ih ..)
      · rw [runFrom_ends hgo hround]
        exact hends _ _ _ _ _ _ _ _ hgo hround

/-! ### What rounds keep -/

section Keeps

variable {P : Cpu → Prop} (hstep : ∀ c s, P c → P (c.step.hold bus s).1.2)
  (hdeliver : ∀ c s, P c → P (c.deliver.hold bus s).1.2)
include hstep hdeliver

/-- A round keeps what a step and a delivery keep. -/
theorem round_keeps {o : Option Exit} (hround : round bus steps c s = (o, c', s')) (h : P c) :
    P c' := by
  have h₁ := hstep c s h
  unfold round at hround
  rcases hhold : c.step.hold bus s with ⟨⟨result, c₁⟩, s₁⟩
  rw [hhold] at h₁ hround
  cases result with
  | completed | unimplemented word =>
    cases hround
    exact h₁
  | trapped t =>
    have h₂ := hdeliver c₁ s₁ h₁
    simp only at hround
    rcases hhold₁ : c₁.deliver.hold bus s₁ with ⟨⟨refused, c₂⟩, s₂⟩
    rw [hhold₁] at h₂ hround
    cases refused <;> cases hround <;> exact h₂

/-- A run keeps what its rounds keep, whenever it ends. -/
theorem runFrom_keeps (budget steps asked : Nat) (s : σ) (h : P c) :
    P (runFrom bus stop budget steps asked c s).cpu := by
  refine runFrom_rounds (P := fun _ _ _ c _ r => P c → P r.cpu) ?_ ?_ ?_ ?_ budget steps asked c s h
  · exact fun _ _ _ _ _ _ h => h
  · exact fun _ _ _ _ _ h => h
  · exact fun _ _ _ _ _ _ _ _ _ hround h => round_keeps hstep hdeliver hround h
  · exact fun _ _ _ _ _ _ _ _ _ hround ih h => ih (round_keeps hstep hdeliver hround h)

end Keeps

/-! ### Counting -/

/-- What the exit says of the number of rounds and of the device, and how often a run
asks. -/
theorem runFrom_counts (budget steps asked : Nat) (c : Cpu) (s : σ) :
    let r := runFrom bus stop budget steps asked c s
    (r.exit = .budgetSpent → r.steps = steps + budget ∧ stop r.steps r.device = false) ∧
      (r.exit = .stopped → stop r.steps r.device = true) ∧
      r.asked + steps = asked + r.steps + 1 := by
  refine runFrom_rounds (P := fun budget steps asked _ _ r =>
    (r.exit = .budgetSpent → r.steps = steps + budget ∧ stop r.steps r.device = false) ∧
      (r.exit = .stopped → stop r.steps r.device = true) ∧
      r.asked + steps = asked + r.steps + 1) ?_ ?_ ?_ ?_ budget steps asked c s
  · intro budget steps asked c s hstop
    exact ⟨nofun, fun _ => hstop, Nat.add_right_comm ..⟩
  · intro steps asked c s hgo
    exact ⟨fun _ => ⟨rfl, hgo⟩, nofun, Nat.add_right_comm ..⟩
  · intro budget steps asked c s e c' s' _ hround
    obtain ⟨hspent, hstopped⟩ := round_ends hround
    exact ⟨fun he => absurd he hspent, fun he => absurd he hstopped, Nat.add_right_comm ..⟩
  · rintro budget steps asked c s c' s' r _ _ ⟨hspent, hstopped, hasked⟩
    refine ⟨fun he => ?_, hstopped, by omega⟩
    obtain ⟨hsteps, hdevice⟩ := hspent he
    exact ⟨by omega, hdevice⟩

/-- No run completes more rounds than its budget has. -/
theorem runFrom_steps_le (budget steps asked : Nat) (c : Cpu) (s : σ) :
    (runFrom bus stop budget steps asked c s).steps ≤ steps + budget := by
  refine runFrom_rounds (P := fun budget steps _ _ _ r => r.steps ≤ steps + budget)
    ?_ ?_ ?_ ?_ budget steps asked c s
  · exact fun _ _ _ _ _ _ => Nat.le_add_right ..
  · exact fun _ _ _ _ _ => Nat.le_refl _
  · exact fun _ _ _ _ _ _ _ _ _ _ => Nat.le_add_right ..
  · intro budget steps asked c s c' s' r _ _ ih
    omega

/-! ### One budget after the other -/

/-- **Budgets add up.** A run goes on where its first budget is spent. It was asked there
already and is not asked again. -/
theorem runFrom_add (n m steps asked : Nat) (c : Cpu) (s : σ) :
    let r := runFrom bus stop n steps asked c s
    runFrom bus stop (n + m) steps asked c s =
      if r.exit = .budgetSpent then runFrom bus stop m r.steps (r.asked - 1) r.cpu r.device
      else r := by
  refine runFrom_rounds (P := fun n steps asked c s r =>
    runFrom bus stop (n + m) steps asked c s =
      if r.exit = .budgetSpent then runFrom bus stop m r.steps (r.asked - 1) r.cpu r.device
      else r) ?_ ?_ ?_ ?_ n steps asked c s
  · intro n steps asked c s hstop
    exact runFrom_stopped hstop
  · intro steps asked c s _
    rw [Nat.zero_add]
    rfl
  · intro n steps asked c s e c' s' hgo hround
    rw [Nat.add_right_comm, runFrom_ends hgo hround, if_neg (round_ends hround).1]
  · intro n steps asked c s c' s' r hgo hround ih
    rw [Nat.add_right_comm, runFrom_goes hgo hround, ih]

/-- A run that a round ended has completed all rounds before that one. -/
theorem runFrom_last (budget steps asked : Nat) (c : Cpu) (s : σ) :
    let r := runFrom bus stop budget steps asked c s
    r.exit ≠ .budgetSpent → r.exit ≠ .stopped → ∃ k < budget,
      let before := runFrom bus stop k steps asked c s
      before.exit = .budgetSpent ∧ r.steps = steps + k ∧
        round bus before.steps before.cpu before.device = (some r.exit, r.cpu, r.device) := by
  refine runFrom_rounds (P := fun budget steps asked c s r =>
    r.exit ≠ .budgetSpent → r.exit ≠ .stopped → ∃ k < budget,
      let before := runFrom bus stop k steps asked c s
      before.exit = .budgetSpent ∧ r.steps = steps + k ∧
        round bus before.steps before.cpu before.device = (some r.exit, r.cpu, r.device))
    ?_ ?_ ?_ ?_ budget steps asked c s
  · intro budget steps asked c s _ _ hne
    exact absurd rfl hne
  · intro steps asked c s _ hne
    exact absurd rfl hne
  · intro budget steps asked c s e c' s' hgo hround _ _
    refine ⟨0, Nat.succ_pos budget, ?_⟩
    rw [runFrom_spent hgo]
    exact ⟨rfl, rfl, hround⟩
  · intro budget steps asked c s c' s' r hgo hround ih hspent hstopped
    obtain ⟨k, hk, hbefore, hsteps, hlast⟩ := ih hspent hstopped
    refine ⟨k + 1, Nat.succ_lt_succ hk, ?_⟩
    rw [runFrom_goes hgo hround]
    exact ⟨hbefore, by omega, hlast⟩

/-- The number of a round matters only to a device that keeps a journal. -/
theorem runFrom_after {stop : σ → Bool} (hquiet : ∀ r s, bus.hear r s = s)
    (k budget steps asked : Nat) (c : Cpu) (s : σ) :
    runFrom bus (fun _ => stop) budget (k + steps) (k + asked) c s =
      (runFrom bus (fun _ => stop) budget steps asked c s).after k := by
  have hround : ∀ steps c s, round bus (k + steps) c s = round bus steps c s := by
    intro steps c s
    simp only [round, hquiet]
  refine runFrom_rounds (P := fun budget steps asked c s r =>
    runFrom bus (fun _ => stop) budget (k + steps) (k + asked) c s = r.after k)
    ?_ ?_ ?_ ?_ budget steps asked c s
  · intro budget steps asked c s hstop
    exact runFrom_stopped hstop
  · intro steps asked c s hgo
    exact runFrom_spent hgo
  · intro budget steps asked c s e c' s' hgo hends
    exact runFrom_ends hgo ((hround ..).trans hends)
  · intro budget steps asked c s c' s' r hgo hgoes ih
    rw [runFrom_goes hgo ((hround ..).trans hgoes)]
    exact ih

end Cpu

/-! ### The driver of a run -/

/-- Rounds repeated at most `n` times, as long as `stop` does not hold, take `c` and `s` to
`c'` and `s'`. A refused delivery and a word that is not implemented are the end. -/
inductive Drives {σ : Type} (bus : Bus σ) (stop : σ → Bool) : Nat → Cpu → σ → Cpu → σ → Prop where
  | spent {c : Cpu} {s : σ} : Drives bus stop 0 c s c s
  | stops {n : Nat} {c : Cpu} {s : σ} (h : stop s = true) : Drives bus stop n c s c s
  | completes {n : Nat} {c c₁ c' : Cpu} {s s₁ s' : σ} (h : stop s = false)
    (hstep : c.step.hold bus s = ((.completed, c₁), s₁)) (rest : Drives bus stop n c₁ s₁ c' s') :
    Drives bus stop (n + 1) c s c' s'
  | delivers {n : Nat} {c c₁ c₂ c' : Cpu} {s s₁ s₂ s' : σ} {t : Trap} (h : stop s = false)
    (hstep : c.step.hold bus s = ((.trapped t, c₁), s₁))
    (hdeliver : c₁.deliver.hold bus s₁ = ((none, c₂), s₂)) (rest : Drives bus stop n c₂ s₂ c' s') :
    Drives bus stop (n + 1) c s c' s'
  | refuses {n : Nat} {c c₁ c₂ : Cpu} {s s₁ s₂ : σ} {t refused : Trap} (h : stop s = false)
    (hstep : c.step.hold bus s = ((.trapped t, c₁), s₁))
    (hdeliver : c₁.deliver.hold bus s₁ = ((some refused, c₂), s₂)) :
    Drives bus stop (n + 1) c s c₂ s₂
  | unimplemented {n : Nat} {c c₁ : Cpu} {s s₁ : σ} {word : Word} (h : stop s = false)
    (hstep : c.step.hold bus s = ((.unimplemented word, c₁), s₁)) :
    Drives bus stop (n + 1) c s c₁ s₁

section Quiet

variable {σ : Type} {bus : Bus σ} {stop : σ → Bool} {c c' : Cpu} {s s' : σ}

/-- What the driver comes to is what a run comes to. -/
theorem Drives.runFrom {n : Nat} (hquiet : ∀ r s, bus.hear r s = s)
    (h : Drives bus stop n c s c' s') (steps asked : Nat) :
    let r := Cpu.runFrom bus (fun _ => stop) n steps asked c s
    c' = r.cpu ∧ s' = r.device := by
  induction h generalizing steps asked with
  | @spent c s =>
    by_cases hstop : stop s = true
    · rw [Cpu.runFrom_stopped hstop]
      exact ⟨rfl, rfl⟩
    · rw [Cpu.runFrom_spent (Bool.eq_false_iff.mpr hstop)]
      exact ⟨rfl, rfl⟩
  | stops h =>
    rw [Cpu.runFrom_stopped h]
    exact ⟨rfl, rfl⟩
  | completes h hstep _ ih =>
    rw [Cpu.runFrom_completed h hstep]
    exact ih ..
  | delivers h hstep hdeliver _ ih =>
    rw [Cpu.runFrom_delivered h hstep hdeliver, hquiet]
    exact ih ..
  | refuses h hstep hdeliver =>
    rw [Cpu.runFrom_refused h hstep hdeliver]
    exact ⟨rfl, rfl⟩
  | unimplemented h hstep =>
    rw [Cpu.runFrom_unimplemented h hstep]
    exact ⟨rfl, rfl⟩

/-- A round that goes on is one of the driver's. -/
theorem Drives.goes {n steps : Nat} {c₁ : Cpu} {s₁ : σ} (hquiet : ∀ r s, bus.hear r s = s)
    (hgo : stop s = false) (hround : c.round bus steps s = (none, c₁, s₁))
    (rest : Drives bus stop n c₁ s₁ c' s') : Drives bus stop (n + 1) c s c' s' := by
  unfold Cpu.round at hround
  split at hround
  · cases hround
    exact .completes hgo ‹_› rest
  · cases hround
  · split at hround
    · cases hround
    · rw [hquiet] at hround
      cases hround
      exact .delivers hgo ‹_› ‹_› rest

theorem Drives.ends {n steps : Nat} {e : Exit} (hgo : stop s = false)
    (hround : c.round bus steps s = (some e, c', s')) : Drives bus stop (n + 1) c s c' s' := by
  unfold Cpu.round at hround
  split at hround
  · cases hround
  · cases hround
    exact .unimplemented hgo ‹_›
  · split at hround
    · cases hround
      exact .refuses hgo ‹_› ‹_›
    · cases hround

/-- A run is one way to drive a processor, and the only one. -/
theorem drives_iff (hquiet : ∀ r s, bus.hear r s = s) (n steps asked : Nat) (c : Cpu) (s : σ)
    (c' : Cpu) (s' : σ) :
    let r := Cpu.runFrom bus (fun _ => stop) n steps asked c s
    Drives bus stop n c s c' s' ↔ c' = r.cpu ∧ s' = r.device := by
  intro r
  have hdrives : Drives bus stop n c s r.cpu r.device := by
    refine Cpu.runFrom_rounds (P := fun n _ _ c s r => Drives bus stop n c s r.cpu r.device)
      ?_ ?_ ?_ ?_ n steps asked c s
    · intro n steps asked c s hstop
      exact .stops hstop
    · intro steps asked c s _
      exact .spent
    · intro n steps asked c s e c' s' hgo hround
      exact .ends hgo hround
    · intro n steps asked c s c' s' r hgo hround ih
      exact .goes hquiet hgo hround ih
  constructor
  · intro h
    exact h.runFrom hquiet steps asked
  · rintro ⟨rfl, rfl⟩
    exact hdrives

end Quiet

/-- **A run is what its driver does, and budgets add up.** Let the device keep no journal,
and let it alone decide when to stop. A run with a budget of `n` leaves what a driver
leaves that takes at most `n` rounds. With a larger budget it ends as before if it ended
before `n` was spent, and else as the run that goes on from what it left, with `n` rounds
more to count. A budget is spent to its last round and with no call to stop, a run that
is stopped was told so by the device it leaves, and a run asks once more than it has
completed rounds. -/
theorem budgets_add {σ : Type} (read : Word → σ → Except Fault Word × σ)
    (write : Word → Word → σ → Except Fault Unit × σ) (stop : σ → Bool) (c : Cpu) (s : σ) :
    let bus : Bus σ := { read, write }
    let run : Nat → Cpu → σ → RunResult σ := Cpu.run bus fun _ => stop
    (∀ n c' s', Drives bus stop n c s c' s' ↔
      c' = (run n c s).cpu ∧ s' = (run n c s).device) ∧
    (∀ n m, run (n + m) c s =
      if (run n c s).exit = .budgetSpent then
        (run m (run n c s).cpu (run n c s).device).after n
      else run n c s) ∧
    ∀ n, let r := run n c s
      (r.exit = .budgetSpent → r.steps = n ∧ stop r.device = false) ∧
        (r.exit = .stopped → stop r.device = true) ∧ r.asked = r.steps + 1 := by
  intro bus run
  have hquiet : ∀ r s, bus.hear r s = s := fun _ _ => rfl
  have hcounts : ∀ n, let r := run n c s
      (r.exit = .budgetSpent → r.steps = n ∧ stop r.device = false) ∧
        (r.exit = .stopped → stop r.device = true) ∧ r.asked = r.steps + 1 := by
    intro n r
    have hfrom : (r.exit = .budgetSpent → r.steps = 0 + n ∧ stop r.device = false) ∧
        (r.exit = .stopped → stop r.device = true) ∧ r.asked + 0 = 0 + r.steps + 1 :=
      Cpu.runFrom_counts n 0 0 c s
    rwa [Nat.zero_add, Nat.zero_add] at hfrom
  refine ⟨fun n c' s' => drives_iff hquiet n 0 0 c s c' s', fun n m => ?_, hcounts⟩
  have hadd : run (n + m) c s = if (run n c s).exit = .budgetSpent then
      Cpu.runFrom bus (fun _ => stop) m (run n c s).steps ((run n c s).asked - 1) (run n c s).cpu
        (run n c s).device
      else run n c s := Cpu.runFrom_add n m 0 0 c s
  by_cases he : (run n c s).exit = .budgetSpent
  · obtain ⟨hspent, -, hasked⟩ := hcounts n
    obtain ⟨hsteps, -⟩ := hspent he
    rw [if_pos he, hasked, Nat.add_sub_cancel, hsteps] at hadd
    rw [if_pos he]
    calc run (n + m) c s
        = Cpu.runFrom bus (fun _ => stop) m (n + 0) (n + 0) (run n c s).cpu (run n c s).device :=
          hadd
      _ = (run m (run n c s).cpu (run n c s).device).after n := Cpu.runFrom_after hquiet n m 0 0 ..
  · rw [if_neg he] at hadd ⊢
    exact hadd

end SparcIU
