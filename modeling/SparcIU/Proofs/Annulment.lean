/-
# How long the annul flag lives

An annulling branch sets a flag, and the next step takes it back and skips the
slot. Between the two no instruction can trap, since none is carried out. But the
slot has to be fetched before it is skipped, and a fetch can be refused: then the
trap is delivered with the flag still set, and the first instruction of the
handler is skipped in the slot's place.

A run is a row of rounds, each a step with the delivery of its trap (`Driven`).
`owed` reads the flag off the words that were fetched. `Between` is what holds
between two rounds, and `annul_outlives_iff` says when the flag is set as a
handler starts.

Key definitions: `Round`, `Driven`, `owed`, `Between`.
Key theorems: `Driven.runFrom`, `Cpu.trapped_step`, `Between.completed`,
`Between.delivered`, `annul_outlives_iff`, `annul_outlives_refused_slot`.
-/
import SparcIU.Proofs.Reachable
import SparcIU.Proofs.HandlerReturn

namespace SparcIU

/-! ### Rounds -/

/-- A round of a run: the state it starts in, the word it fetches, none if the
fetch fails, and the trap it delivers, none if the step completes. -/
structure Round where
  cpu : Cpu
  word : Option Word
  trap : Option Trap

/-- The rounds, latest first, take a processor from `c₀` to `c`. The device may
be changed from outside before every step and every delivery. -/
inductive Driven {σ : Type} (bus : Bus σ) (c₀ : Cpu) : List Round → Cpu → Prop where
  | start : Driven bus c₀ [] c₀
  | completed {l : List Round} {c c' : Cpu} (h : Driven bus c₀ l c) (s : σ)
    (hstep : (c.step.hold bus s).1 = (.completed, c')) :
    Driven bus c₀ (⟨c, c.fetched bus s, none⟩ :: l) c'
  | delivered {l : List Round} {c c₁ c₂ : Cpu} {t : Trap} (h : Driven bus c₀ l c) (s s₁ : σ)
    (hstep : (c.step.hold bus s).1 = (.trapped t, c₁))
    (hdeliver : (c₁.deliver.hold bus s₁).1 = (none, c₂)) :
    Driven bus c₀ (⟨c, c.fetched bus s, some t⟩ :: l) c₂

/-- A round that goes on is one more. -/
theorem Driven.round {σ : Type} {bus : Bus σ} {c₀ c c' : Cpu} {l : List Round} {steps : Nat}
    {s s' : σ} (h : Driven bus c₀ l c) (hround : c.round bus steps s = (none, c', s')) :
    ∃ r, Driven bus c₀ (r :: l) c' := by
  unfold Cpu.round at hround
  split at hround
  · rename_i hstep
    cases hround
    exact ⟨_, h.completed s (congrArg Prod.fst hstep)⟩
  · cases hround
  · rename_i hstep
    split at hround
    · cases hround
    · rename_i hdeliver
      cases hround
      exact ⟨_, h.delivered s _ (congrArg Prod.fst hstep) (congrArg Prod.fst hdeliver)⟩

/-- What a run does is driven, unless it ends at a trap that is refused or a word
that is not implemented. -/
theorem Driven.runFrom {σ : Type} {bus : Bus σ} {c₀ c : Cpu} {l : List Round}
    (h : Driven bus c₀ l c) (stop : Nat → σ → Bool) (budget steps asked : Nat) (s : σ)
    (hexit : (Cpu.runFrom bus stop budget steps asked c s).exit = .budgetSpent ∨
      (Cpu.runFrom bus stop budget steps asked c s).exit = .stopped) :
    ∃ l', Driven bus c₀ (l' ++ l) (Cpu.runFrom bus stop budget steps asked c s).cpu := by
  refine Cpu.runFrom_rounds (P := fun _ _ _ c _ r => ∀ l, Driven bus c₀ l c →
    r.exit = .budgetSpent ∨ r.exit = .stopped → ∃ l', Driven bus c₀ (l' ++ l) r.cpu) ?_ ?_ ?_ ?_
    budget steps asked c s l h hexit
  · intro budget steps asked c s _ l h _
    exact ⟨[], h⟩
  · intro steps asked c s _ l h _
    exact ⟨[], h⟩
  · intro budget steps asked c s e c' s' _ hround l _ hexit
    obtain ⟨hspent, hstopped⟩ := Cpu.round_ends hround
    rcases hexit with he | he
    · exact absurd he hspent
    · exact absurd he hstopped
  · intro budget steps asked c s c' s' r _ hround ih l h hexit
    obtain ⟨one, hone⟩ := h.round hround
    obtain ⟨l', hl'⟩ := ih (one :: l) hone hexit
    exact ⟨l' ++ [one], by rwa [List.append_assoc]⟩

/-- Whether a slot is still to be skipped after the rounds: the word of the last
round that fetched one was not skipped itself and has its successor skipped. -/
def owed : List Round → Bool
  | [] => false
  | ⟨c, some word, none⟩ :: l => !owed l && c.annuls word
  | ⟨_, some _, some _⟩ :: _ => false
  | ⟨_, none, _⟩ :: l => owed l

section Steps

variable {σ : Type} {bus : Bus σ} {c c' c₁ c₂ : Cpu} {s s₁ : σ} {t : Trap} {l : List Round}

/-- A step that completes leaves no trap. -/
theorem Cpu.completed_pendingTrap (hstep : (c.step.hold bus s).1 = (.completed, c')) :
    c'.pendingTrap = none := by
  have hall : c.step.Always fun _ r => ∀ c', r = (.completed, c') → c'.pendingTrap = none := by
    refine always_step ?_ ?_ ?_ ?_ ?_ ?_
    · rintro - c' ⟨⟩
    · rintro e - c' ⟨⟩
    · rintro word t - - c' ⟨⟩
    · rintro word - hp - c' ⟨⟩
      exact hp
    · rintro word - - - - c' ⟨⟩
    · intro word _ _ _ _
      refine (steers_execute c.clearZero _).mono fun l c₁ _ c' h => ?_
      unfold outcome at h
      split at h
      · cases h
      · cases h
        assumption
  exact hall.hold bus s c' hstep

/-- A step that traps leaves the trap pending and the flag as it was; with the
flag set, only the fetch can have trapped. -/
theorem Cpu.trapped_step (hp : c.pendingTrap = none)
    (hstep : (c.step.hold bus s).1 = (.trapped t, c₁)) : c₁.pendingTrap = some t.kind ∧
      c₁.pendingAnnul = c.pendingAnnul ∧ (c.pendingAnnul → c.fetched bus s = none) := by
  obtain ⟨-, hleft⟩ := (step_raises hp).hold bus s t c₁ hstep
  have hfetch : c.pendingAnnul → c.fetched bus s = none := by
    intro hannul
    cases hf : c.fetched bus s with
    | none => rfl
    | some word =>
      have hskip := (step_annulled hp hannul hf).1
      rw [hstep] at hskip
      cases hskip
  rcases hleft with ⟨-, rfl, -⟩ | ⟨word, l, -, ⟨rfl, -⟩, -⟩
  · exact ⟨rfl, rfl, hfetch⟩
  · exact ⟨rfl, cutShort_pendingAnnul .., hfetch⟩

/-! ### Between two rounds -/

/-- What holds between two rounds of a vectored run: no trap is pending, no
target is queued, and the flag is set if a skip is owed. -/
structure Between (l : List Round) (c : Cpu) : Prop where
  sound : c.Sound
  mode : c.config.trapMode = .vectored
  trap : c.pendingTrap = none
  target : c.branchTarget = none
  annul : c.pendingAnnul = owed l

theorem Between.completed (h : Between l c) (hstep : (c.step.hold bus s).1 = (.completed, c')) :
    Between (⟨c, c.fetched bus s, none⟩ :: l) c' := by
  have hkeeps : Cpu.Settles c c' := .of_step h.sound hstep
  obtain ⟨word, hf, -, htarget, -, hannul⟩ := Cpu.completed_step h.target hstep
  refine ⟨hkeeps.sound h.sound, ?_, Cpu.completed_pendingTrap hstep, htarget, ?_⟩
  · rw [hkeeps.config]
    exact h.mode
  · rw [hannul, hf, h.annul]
    rfl

/-- The trap of a step is always delivered, and the flag stays as it was. -/
theorem Between.handled (h : Between l c) (hstep : (c.step.hold bus s).1 = (.trapped t, c₁))
    (s₁ : σ) : (c₁.deliver.hold bus s₁).1 = (none, c₁.atHandler t.kind) ∧
      (c₁.atHandler t.kind).pendingAnnul = owed l := by
  obtain ⟨hp, hannul, -⟩ := Cpu.trapped_step h.trap hstep
  have hkeeps : Cpu.Settles c c₁ := .of_step h.sound hstep
  have hmode : c₁.config.trapMode = .vectored := by
    rw [hkeeps.config]
    exact h.mode
  exact ⟨Cpu.hold_deliver_vectored hmode hp bus s₁,
    (Cpu.atHandler_pendingAnnul c₁ t.kind).trans (hannul.trans h.annul)⟩

theorem Between.delivered (h : Between l c) (hstep : (c.step.hold bus s).1 = (.trapped t, c₁))
    (hdeliver : (c₁.deliver.hold bus s₁).1 = (none, c₂)) :
    Between (⟨c, c.fetched bus s, some t⟩ :: l) c₂ := by
  obtain ⟨hnone, hannul⟩ := h.handled hstep s₁
  obtain rfl : c₁.atHandler t.kind = c₂ := congrArg Prod.snd (hnone.symm.trans hdeliver)
  have hkeeps₁ : Cpu.Settles c c₁ := .of_step h.sound hstep
  have hkeeps := hkeeps₁.trans (.of_deliver (hkeeps₁.sound h.sound) hdeliver)
  refine ⟨hkeeps.sound h.sound, ?_, rfl, hkeeps.idle h.target, ?_⟩
  · rw [hkeeps.config]
    exact h.mode
  · rw [hannul]
    cases hf : c.fetched bus s with
    | none => rfl
    | some word =>
      -- an instruction trapped, so no skip was owed
      have hclear := (Cpu.trapped_step h.trap hstep).2.2
      rw [h.annul, hf] at hclear
      exact Bool.eq_false_iff.mpr fun howed => by cases hclear howed

theorem Driven.between {c₀ : Cpu} (h₀ : Between [] c₀) (h : Driven bus c₀ l c) : Between l c := by
  induction h with
  | start => exact h₀
  | completed _ s hstep ih => exact ih.completed hstep
  | delivered _ s s₁ hstep hdeliver ih => exact ih.delivered hstep hdeliver

theorem between_reset {config : Configuration} {c₀ : Cpu} (hc : Cpu.ofConfiguration config = .ok c₀)
    (hmode : config.trapMode = .vectored) (pc : Word) : Between [] (c₀.reset pc) := by
  have hs := Cpu.fresh_sound hc
  refine ⟨(Cpu.settles_reset hs pc).sound hs, ?_, rfl, rfl, rfl⟩
  rw [(Cpu.ofConfiguration_ok hc).2]
  exact hmode

/-- After a completed round control is at the second address of the round. -/
theorem Driven.pc_eq {c₀ : Cpu} (h₀ : Between [] c₀) (h : Driven bus c₀ l c) {r : Round}
    {rest : List Round} (hl : l = r :: rest) (htrap : r.trap = none) : c.pc = r.cpu.npc := by
  cases h with
  | start => cases hl
  | completed hrest s hstep =>
    obtain ⟨rfl, -⟩ := List.cons.inj hl
    obtain ⟨-, -, hpc, -⟩ := Cpu.completed_step (hrest.between h₀).target hstep
    exact hpc
  | delivered hrest s s₁ hstep hdeliver =>
    obtain ⟨rfl, -⟩ := List.cons.inj hl
    cases htrap

end Steps

/-- **When the flag outlives its slot.** In a vectored run from a reset the flag
is set exactly if a skip is owed, and if the last step completed, what is to be
skipped is at its second address. The trap of a step is always delivered. As the
handler starts, the flag is set exactly if a skip was owed and the slot could not
be fetched; in any other case the first word of the handler is carried out. -/
theorem annul_outlives_iff {σ : Type} {config : Configuration} {c₀ c : Cpu}
    (hc : Cpu.ofConfiguration config = .ok c₀) (hmode : config.trapMode = .vectored) (pc : Word)
    (bus : Bus σ) {l : List Round} (h : Driven bus (c₀.reset pc) l c) :
    (c.pendingAnnul = owed l ∧ ∀ r rest, l = r :: rest → r.trap = none → c.pc = r.cpu.npc) ∧
    ∀ s t c₁, (c.step.hold bus s).1 = (.trapped t, c₁) → ∀ s₁,
      ∃ c₂, (c₁.deliver.hold bus s₁).1 = (none, c₂) ∧ c₂.pc = c₂.tbr - c₂.tbr % 16 ∧
        (c₂.pendingAnnul = true ↔ owed l = true ∧ c.fetched bus s = none) ∧
        ∀ s₂ word, c₂.fetched bus s₂ = some word → ¬ (owed l = true ∧ c.fetched bus s = none) →
          c₂.step.hold bus s₂ = (c₂.clearZero.dispatch word (Instr.ofWord word)).hold bus
            (bus.hear (.executes c₂.pc (Instr.ofWord word)) (bus.read c₂.pc s₂).2) := by
  have h₀ := between_reset hc hmode pc
  have hb := h.between h₀
  refine ⟨⟨hb.annul, fun r rest hl htrap => h.pc_eq h₀ hl htrap⟩, fun s t c₁ hstep s₁ => ?_⟩
  obtain ⟨hdeliver, hannul⟩ := hb.handled hstep s₁
  have hfetch := (Cpu.trapped_step hb.trap hstep).2.2
  have hiff : (c₁.atHandler t.kind).pendingAnnul = true ↔
      owed l = true ∧ c.fetched bus s = none := by
    rw [hannul]
    exact ⟨fun howed => ⟨howed, hfetch (hb.annul.trans howed)⟩, fun h => h.1⟩
  refine ⟨_, hdeliver, rfl, hiff, fun s₂ word hf hnot => ?_⟩
  exact Cpu.step_dispatched rfl (Bool.eq_false_iff.mpr fun hset => hnot (hiff.mp hset)) hf

/-- A bus with `ba,a .+8` at 0, `ta 3` at 8 and `or %g0, 7, %o0` anywhere else;
the slot at 4 is answered for by `slot`. -/
def slotBus (slot : Except Fault Word) : Bus Unit where
  read addr s := (if addr = 0 then .ok 0x30800002 else if addr = 4 then slot
    else if addr = 8 then .ok 0x91d02003 else .ok 0x90102007, s)
  write _ _ s := (.ok (), s)

theorem reset_resetTwo : resetTwo.reset 0 = resetTwo := by simp [Cpu.reset, resetTwo]

/-- On the way from the branch to its slot. -/
def atSlot : Cpu := { resetTwo with pc := 4, npc := 8, pendingAnnul := true }

/-- A slot that is no instruction is skipped, and the handler of the trap behind
it starts with its own first word. -/
theorem annul_outlives_iff_skipped_slot : ∃ r l c c₁ t c₂,
    Driven (slotBus (.ok 0xffffffff)) (resetTwo.reset 0) (r :: l) c ∧ r.cpu.pendingAnnul = true ∧
      (c.step.hold (slotBus (.ok 0xffffffff)) ()).1 = (.trapped t, c₁) ∧
      (c₁.deliver.hold (slotBus (.ok 0xffffffff)) ()).1 = (none, c₂) ∧ c₂.pendingAnnul = false := by
  let c : Cpu := { resetTwo with pc := 8, npc := 12 }
  have hbranch : ((resetTwo.reset 0).step.hold (slotBus (.ok 0xffffffff)) ()).1 =
      (.completed, atSlot) := by
    rw [reset_resetTwo]
    decide
  have hskip : (atSlot.step.hold (slotBus (.ok 0xffffffff)) ()).1 = (.completed, c) := by decide
  have htrap : (c.step.hold (slotBus (.ok 0xffffffff)) ()).1 =
      (.trapped ⟨.software 3, 8, 12⟩, c.raise (.software 3)) := by decide
  have hdriven := (Driven.start.completed () hbranch).completed () hskip
  have hfresh : Cpu.ofConfiguration { windows := 2 } = .ok resetTwo := rfl
  obtain ⟨-, hhandler⟩ := annul_outlives_iff hfresh rfl 0 (slotBus (.ok 0xffffffff)) hdriven
  obtain ⟨c₂, hdeliver, -, hiff, -⟩ := hhandler () _ _ htrap ()
  refine ⟨_, _, c, _, _, c₂, hdriven, rfl, htrap, hdeliver, ?_⟩
  rw [← Bool.not_eq_true, hiff]
  rintro ⟨howed, -⟩
  exact absurd howed (by decide)

/-- **A refused slot.** The trap of its fetch is delivered with the flag still
set, and the handler's `or %g0, 7, %o0` is skipped. -/
theorem annul_outlives_refused_slot : ∃ r l c₂,
    Driven (slotBus (.error (.outOfRange 4))) (resetTwo.reset 0) (r :: l) c₂ ∧
      r.trap = some ⟨.instructionAccess, 4, 8⟩ ∧ c₂.pendingAnnul = true ∧
      c₂.fetched (slotBus (.error (.outOfRange 4))) () = some 0x90102007 ∧
      (c₂.step.hold (slotBus (.error (.outOfRange 4))) ()).1 =
        (.completed, { c₂ with pc := c₂.npc, npc := c₂.npc + 4, pendingAnnul := false }) := by
  have hbranch : ((resetTwo.reset 0).step.hold (slotBus (.error (.outOfRange 4))) ()).1 =
      (.completed, atSlot) := by
    rw [reset_resetTwo]
    decide
  have hfetch : (atSlot.step.hold (slotBus (.error (.outOfRange 4))) ()).1 =
      (.trapped ⟨.instructionAccess, 4, 8⟩, atSlot.raise .instructionAccess) := by decide
  have hdeliver : ((atSlot.raise .instructionAccess).deliver.hold (slotBus (.error (.outOfRange 4)))
      ()).1 = (none, atSlot.atHandler .instructionAccess) := by decide
  have hdriven := (Driven.start.completed () hbranch).delivered () () hfetch hdeliver
  exact ⟨_, _, _, hdriven, rfl, rfl, by decide, by decide⟩

end SparcIU
