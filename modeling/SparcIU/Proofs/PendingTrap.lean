/-
# Steps in front of a pending trap

While a trap is pending a step only fetches, and reports the trap. But the fetch
comes first: if it fails, its own trap takes the place of the one that was
pending, which is lost. So however many steps are tried, they make no access but
fetches, and they leave the processor as it was up to the first fetch that fails;
from there on the trap of the fetch is the pending one (`Cpu.always_steps_pending`).
A delivery delivers the trap that is pending then (`Cpu.always_deliver_pending`).

Key definitions: `Cpu.steps`, `Cpu.Refetches`, `Cpu.Delivers`.
Key theorems: `Cpu.always_step_pending`, `Cpu.always_steps_pending`, `Cpu.always_serve`,
`Cpu.always_deliver_pending`, `pending_survives_iff`, `pending_lost`.
-/
import SparcIU.Proofs.Precision
import SparcIU.Proofs.Service

namespace SparcIU
namespace Cpu

variable {c c' : Cpu} {t : TrapKind}

/-! ### Rows of steps -/

/-- Up to `n` steps with no delivery between them: what each of them came to, and
the processor. A word that is not implemented is the end. -/
def steps : Nat → Cpu → Dialogue (List StepResult × Cpu)
  | 0, c => .done ([], c)
  | n + 1, c => c.step.bind fun
    | (.unimplemented word, c) => .done ([.unimplemented word], c)
    | (r, c) => (steps n c).map fun (rs, c) => (r :: rs, c)

/-- A step that finds a trap pending: the word is fetched and the trap reported,
or the fetch fails and its trap is the pending one. -/
theorem always_step_pending (hp : c.pendingTrap = some t) : c.step.Always fun l r =>
    (c.pc.isAligned ∧ (∃ word, l = [.read c.pc (.ok word)]) ∧ r = (.trapped (c.report t), c)) ∨
      ((¬ c.pc.isAligned ∧ l = [] ∨ ∃ e, l = [.read c.pc (.error e)]) ∧
        r = (.trapped (c.report .instructionAccess), c.raise .instructionAccess)) := by
  have hnone : c.pendingTrap ≠ none := by
    rw [hp]
    exact nofun
  refine always_step ?_ ?_ ?_ ?_ ?_ ?_
  · exact fun hmis => .inr ⟨.inl ⟨hmis, rfl⟩, rfl⟩
  · exact fun e _ => .inr ⟨.inr ⟨e, rfl⟩, rfl⟩
  · intro word t' ha ht'
    obtain rfl : t = t' := Option.some.inj (hp.symm.trans ht')
    exact .inl ⟨ha, ⟨word, rfl⟩, rfl⟩
  · exact fun _ _ h => absurd h hnone
  · exact fun _ _ h => absurd h hnone
  · exact fun _ _ h => absurd h hnone

/-- All of `n` steps could fetch; `l` has their accesses. -/
def Refetches (c : Cpu) (n : Nat) (l : List Access) : Prop :=
  (n = 0 ∨ c.pc.isAligned) ∧ ∀ a ∈ l, a.loaded ≠ none

/-- **Steps in front of a pending trap.** The first `k` of `n` steps can fetch and
report the trap that was pending, and the others report that of a fetch. -/
theorem always_steps_pending (hp : c.pendingTrap = some t) (n : Nat) :
    (c.steps n).Always fun l x =>
      (∀ a ∈ l, ∃ answer, a = .read c.pc answer) ∧
      ∃ k ≤ n, (k = n ↔ c.Refetches n l) ∧
        x.1 = List.replicate k (.trapped (c.report t)) ++
          List.replicate (n - k) (.trapped (c.report .instructionAccess)) ∧
        x.2 = if k = n then c else c.raise .instructionAccess := by
  induction n generalizing c t with
  | zero =>
    refine ⟨List.forall_mem_nil _, 0, Nat.le_refl 0, ?_, rfl, rfl⟩
    exact iff_of_true rfl ⟨.inl rfl, List.forall_mem_nil _⟩
  | succ n ih =>
    refine .bind ((always_step_pending hp).mono ?_)
    rintro l _ (⟨ha, ⟨word, rfl⟩, rfl⟩ | ⟨hfail, rfl⟩)
    · refine .map ((ih hp).mono ?_)
      rintro l' ⟨rs, c'⟩ ⟨hl', k, hk, hiff, rfl, rfl⟩
      refine ⟨List.forall_mem_cons.mpr ⟨⟨_, rfl⟩, hl'⟩, k + 1, Nat.succ_le_succ hk, ?_, ?_, ?_⟩
      · rw [Nat.add_right_cancel_iff, hiff]
        constructor
        · exact fun ⟨_, hall⟩ => ⟨.inr ha, List.forall_mem_cons.mpr ⟨nofun, hall⟩⟩
        · exact fun ⟨_, hall⟩ => ⟨.inr ha, (List.forall_mem_cons.mp hall).2⟩
      · rw [Nat.add_sub_add_right]
        rfl
      · simp only [Nat.add_right_cancel_iff]
    · -- from here on the trap of the fetch is the pending one
      have hnot : ∀ l', ¬ c.Refetches (n + 1) (l ++ l') := by
        rintro l' ⟨ha, hall⟩
        rcases hfail with ⟨hmis, -⟩ | ⟨e, rfl⟩
        · exact hmis (ha.resolve_left (Nat.succ_ne_zero n))
        · exact hall _ List.mem_cons_self rfl
      have hl : ∀ a ∈ l, ∃ answer, a = Access.read c.pc answer := by
        rcases hfail with ⟨-, rfl⟩ | ⟨e, rfl⟩
        · exact List.forall_mem_nil _
        · exact List.forall_mem_singleton.mpr ⟨_, rfl⟩
      refine .map ((ih (c := c.raise .instructionAccess) rfl).mono ?_)
      rintro l' ⟨rs, c'⟩ ⟨hl', k, hk, -, rfl, rfl⟩
      refine ⟨List.forall_mem_append.mpr ⟨hl, hl'⟩, 0, Nat.zero_le _, ?_, ?_, ?_⟩
      · exact iff_of_false (Nat.succ_ne_zero n).symm (hnot l')
      · have hreport : (c.raise .instructionAccess).report .instructionAccess =
            c.report .instructionAccess := rfl
        simp only [hreport, List.replicate_append_replicate, Nat.add_sub_cancel' hk]
        rfl
      · rw [if_neg (Nat.succ_ne_zero n).symm]
        exact ite_self _

/-! ### Deliveries -/

/-- What a delivery of `t` comes to: without a routine it is refused and changes
nothing; else no trap is left and the trap base register has the number of `t`. -/
def Delivers (c : Cpu) (t : TrapKind) : Option Trap × Cpu → Prop
  | (some refused, c') =>
    c.config.trapMode.routine t = none ∧ refused = c.report t ∧ c' = c
  | (none, c') => c.config.trapMode.routine t ≠ none ∧ c'.pendingTrap = none ∧
    c'.tbr = c.tbr - c.tbr % 0x1000 + t.code.toUInt32 * 16 + c.tbr % 16

/-- What register settings, turns of the window, a new invalid mask and a jump to the
handler keep, a routine keeps. -/
theorem always_serve {P : Cpu → Prop} (hset : ∀ c r v, P c → P (c.set r v))
    (hrotate : ∀ c t, P c → P (c.rotate t)) (hwim : ∀ c w, P c → P { c with wim := w })
    (hvector : ∀ c, P c → P c.vector) (h : P c) (routine : Routine) :
    (c.serve routine).Always fun _ c' => P c' := by
  cases routine with
  | vector => exact hvector c h
  | spill =>
    have hback : ∀ c', P c' → P ({ c'.rotate .up with wim := c.markDown }.rotate .up) :=
      fun c' h' => hrotate _ _ (hwim _ _ (hrotate _ _ h'))
    have hbelow := hrotate c .down h
    unfold serve spill
    simp only
    refine .map (.map ?_)
    split
    · exact hback _ hbelow
    · refine (always_storeWindow _ _ _).mono ?_
      rintro l c' ⟨rfl, -⟩
      exact hback _ hbelow
  | fill =>
    have hback : ∀ c', P c' →
        P ({ (c'.rotate .down).rotate .down with wim := c.markUp }.rotate .up) :=
      fun c' h' => hrotate _ _ (hwim _ _ (hrotate _ _ (hrotate _ _ h')))
    have habove := hrotate _ .up (hrotate c .up h)
    unfold serve fill
    simp only
    refine .map (.map ?_)
    split
    · exact hback _ habove
    · refine (always_loadWindow _ _ _).mono ?_
      rintro l c' rfl
      exact hback _ (absorb_induction hset habove _ l)

/-- A routine leaves the trap base register alone. -/
theorem always_serve_tbr (c : Cpu) (routine : Routine) :
    (c.serve routine).Always fun _ c' => c'.tbr = c.tbr :=
  always_serve (P := fun c' => c'.tbr = c.tbr) (fun c' r v h => (set_tbr c' r v).trans h)
    (fun _ _ h => h) (fun _ _ h => h) (fun _ h => h) rfl routine

theorem enterTrap_tbr (c : Cpu) (t : TrapKind) :
    (c.enterTrap t).tbr = c.tbr - c.tbr % 0x1000 + t.code.toUInt32 * 16 + c.tbr % 16 := by
  simp [enterTrap, rotate, setCwp]

/-- A delivery delivers the trap that is pending. -/
theorem always_deliver_pending (hp : c.pendingTrap = some t) :
    c.deliver.Always fun _ r => c.Delivers t r := by
  cases hroutine : c.config.trapMode.routine t with
  | none =>
    unfold deliver
    rw [hp]
    simp only [hroutine]
    exact ⟨hroutine, rfl, rfl⟩
  | some routine =>
    rw [deliver_eq hp hroutine]
    refine .map ((always_serve_tbr _ _).mono fun l c' h => ?_)
    exact ⟨by rw [hroutine]; exact nofun, rfl, h.trans (enterTrap_tbr c t)⟩

end Cpu

/-- **When a pending trap survives.** Let `t` be pending. However many steps are
tried, they make no access but fetches; up to the first one that fails each step
reports `t`, and from there on the trap of a fetch. If none fails the processor is
what it was, and else that trap is pending instead and nothing else has changed.
So `t` survives exactly if all fetches succeed, or if it is the trap of a fetch
itself. A delivery delivers the trap that is pending then. -/
theorem pending_survives_iff {σ : Type} {c : Cpu} {t : TrapKind} (hp : c.pendingTrap = some t)
    (bus : Bus σ) (s : σ) (n : Nat) :
    let l := (c.steps n).transcript bus s
    let x := ((c.steps n).hold bus s).1
    ∃ k ≤ n, (k = n ↔ c.Refetches n l) ∧ (∀ a ∈ l, ∃ answer, a = .read c.pc answer) ∧
      x.1 = List.replicate k (.trapped (c.report t)) ++
        List.replicate (n - k) (.trapped (c.report .instructionAccess)) ∧
      x.2 = (if k = n then c else c.raise .instructionAccess) ∧
      (x.2.pendingTrap = some t ↔ c.Refetches n l ∨ t = .instructionAccess) ∧
      ∀ s, x.2.Delivers (if k = n then t else .instructionAccess) (x.2.deliver.hold bus s).1 := by
  intro l x
  obtain ⟨hl, k, hk, hiff, hrs, hc⟩ := (Cpu.always_steps_pending hp n).hold bus s
  have hpending : x.2.pendingTrap = some (if k = n then t else .instructionAccess) := by
    rw [show x.2 = _ from hc]
    split
    · exact hp
    · rfl
  refine ⟨k, hk, hiff, hl, hrs, hc, ?_, fun s => ?_⟩
  · rw [hpending, Option.some_inj, ← hiff]
    split
    · rename_i h
      exact iff_of_true rfl (.inl h)
    · rename_i h
      exact ⟨fun he => .inr he.symm, fun he => (he.resolve_left h).symm⟩
  · exact (Cpu.always_deliver_pending hpending).hold bus s

/-- A bus that answers one read with a no-op and refuses all others. -/
def onceBus : Bus Nat where
  read addr s := (if s = 0 then .ok 0x01000000 else .error (.outOfRange addr), s + 1)
  write _ _ s := (.ok (), s)

/-- A window overflow survives the first of two steps, and the second one puts the
trap of its fetch in the place of it. -/
theorem pending_survives_iff_second_fetch :
    let c := resetTwo.raise .windowOverflow
    let x := ((c.steps 2).hold onceBus 0).1
    c.pendingTrap = some .windowOverflow ∧
      x.1 = [.trapped ⟨.windowOverflow, 0, 4⟩, .trapped ⟨.instructionAccess, 0, 4⟩] ∧
      x.2.pendingTrap ≠ some .windowOverflow ∧
      ∀ s, x.2.Delivers .instructionAccess (x.2.deliver.hold onceBus s).1 := by
  intro c x
  have hp : c.pendingTrap = some .windowOverflow := rfl
  obtain ⟨k, -, hiff, -, -, -, hsurvives, hdelivers⟩ := pending_survives_iff hp onceBus 0 2
  have hnot : ¬ c.Refetches 2 ((c.steps 2).transcript onceBus 0) := fun h =>
    absurd h.2 (by decide)
  rw [if_neg (mt hiff.mp hnot)] at hdelivers
  refine ⟨hp, by decide, fun h => ?_, hdelivers⟩
  exact (hsurvives.mp h).elim hnot (by decide)

/-- **A lost trap.** A window overflow is pending, and the address at hand cannot be
fetched: the step reports the trap of the fetch, that one is left pending, and the
handler that is entered is its own. -/
theorem pending_lost :
    let c := { resetTwo with pc := 0x1000, npc := 0x1004 }.raise .windowOverflow
    c.pendingTrap = some .windowOverflow ∧
      (c.step.hold doubleLoadBus ()).1 =
        (.trapped ⟨.instructionAccess, 0x1000, 0x1004⟩, c.raise .instructionAccess) ∧
      ∃ c', ((c.raise .instructionAccess).deliver.hold doubleLoadBus ()).1 = (none, c') ∧
        c'.tbr = 0x210 ∧ c'.pc = 0x210 := by
  intro c
  refine ⟨rfl, by decide, ((c.raise .instructionAccess).deliver.hold doubleLoadBus ()).1.2, ?_,
    by decide, by decide⟩
  exact Prod.ext (by decide) rfl

end SparcIU
