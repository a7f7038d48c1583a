/-
# One mark, ahead of the window

After a reset one window is marked, and it is not the current one. Only a few
instructions move the window, and only into a window that is clear
(`Cpu.entered_execute`); only the service of a window trap moves the mark, and
only when it stands on the next window (`Cpu.always_step_windowTrap`), which it
leaves in the same direction. With three windows it does not come to the current
one so. As long as no instruction writes the mask or the state register, this
holds between any two rounds (`Driven.singleMark`): the windows that are entered
are clear, and a save or a restore is tried at most twice.

Key definitions: `Instr.enters`, `Instr.setsWindows`, `Round.SetsWindows`,
`Cpu.Entered`, `SingleMark`.
Key theorems: `Cpu.entered_execute`, `Cpu.always_step_windowTrap`,
`SingleMark.completed`, `SingleMark.delivered`, `single_mark`.
-/
import SparcIU.Proofs.Annulment
import SparcIU.Proofs.Refusal
import SparcIU.Proofs.RetryEnds

namespace SparcIU

/-- The way of an instruction to a window next to the current one; none for
instructions that stay. -/
def Instr.enters : Instr → Option Turn
  | rett _ _ => some .up
  | i => i.turn

/-- The instructions that write the window or the mask as a value. -/
def Instr.setsWindows : Instr → Bool
  | writeState _ _ .psr | writeState _ _ .wim => true
  | _ => false

theorem Instr.not_setsWindows {i : Instr} {t : Turn} (hi : i.enters = some t) :
    ¬ i.setsWindows := by
  cases i with
  | save | restore | rett => exact Bool.false_ne_true
  | _ => cases hi

/-- The round carried out an instruction that writes the window or the mask. -/
def Round.SetsWindows (r : Round) : Prop :=
  r.trap = none ∧ r.cpu.pendingAnnul = false ∧
    ∃ word, r.word = some word ∧ (Instr.ofWord word).setsWindows

namespace Cpu

variable {σ : Type} {bus : Bus σ} {s s₁ : σ} {c c' c₁ c₂ : Cpu} {t : Turn} {i : Instr} {trap : Trap}

/-! ### Windows that are entered -/

/-- What `i` has done to the windows if it completes: it has entered the next
window on its way, which was clear, or it has stayed. -/
def Entered (c : Cpu) (i : Instr) (c' : Cpu) : Prop :=
  c'.wim = c.wim ∧ match i.enters with
    | some t => ¬ c.isInvalid (c.neighbour t) ∧ c'.cwp = c.neighbour t
    | none => c'.cwp = c.cwp

theorem entered_moveWindow (h : c.Shaped) (t : Turn) (rs1 : Reg) (src : Operand) (rd : Reg)
    (hnone : (c.moveWindow t rs1 src rd).pendingTrap = none) :
    (c.moveWindow t rs1 src rd).wim = c.wim ∧ ¬ c.isInvalid (c.neighbour t) ∧
      (c.moveWindow t rs1 src rd).cwp = c.neighbour t := by
  by_cases hm : c.isInvalid (c.neighbour t)
  · rw [moveWindow_of_invalid hm] at hnone
    cases hnone
  · rw [moveWindow_of_clear hm]
    exact ⟨set_wim .., hm, (set_cwp ..).trans (rotate_cwp h t)⟩

theorem entered_returnFromTrap (h : c.Shaped) (rs1 : Reg) (src : Operand)
    (hnone : (c.returnFromTrap rs1 src).pendingTrap = none) :
    (c.returnFromTrap rs1 src).wim = c.wim ∧ ¬ c.isInvalid (c.neighbour .up) ∧
      (c.returnFromTrap rs1 src).cwp = c.neighbour .up := by
  unfold returnFromTrap at hnone ⊢
  simp only at hnone ⊢
  by_cases hm : c.isInvalid (c.neighbour .up)
  · rw [if_pos hm] at hnone
    cases hnone
  · rw [if_neg hm] at hnone ⊢
    split at hnone
    · cases hnone
    · split at hnone
      · cases hnone
      · rw [if_neg ‹_›, if_neg ‹_›]
        exact ⟨rfl, hm, rotate_cwp h .up⟩

/-- The footprint of an instruction that stays. -/
theorem footprint_stays (hi : i.enters = none) (hs : ¬ i.setsWindows) :
    i.footprint.window = false ∧ i.footprint.wim = false := by
  cases i with
  | load kind alternate rs1 src rd => cases kind <;> exact ⟨rfl, rfl⟩
  | writeState rs1 src r =>
    cases r with
    | y | tbr => exact ⟨rfl, rfl⟩
    | psr | wim => exact absurd rfl hs
  | save | restore | rett => cases hi
  | _ => exact ⟨rfl, rfl⟩

/-- **A window is entered only if it is clear.** -/
theorem entered_execute (h : c.Shaped) (hs : ¬ i.setsWindows) :
    (c.execute i).Always fun _ c' => c'.pendingTrap = none → c.Entered i c' := by
  cases hi : i.enters with
  | none =>
    obtain ⟨hwindow, hwim⟩ := footprint_stays hi hs
    refine (within_execute c i).mono fun l c' hw _ => ⟨hw.wim hwim, ?_⟩
    rw [hi]
    exact congrArg Fin.val (hw.cwp hwindow)
  | some t =>
    unfold Entered
    rw [hi]
    cases i with
    | save rs1 src rd | restore rs1 src rd =>
      cases hi
      exact fun hnone => entered_moveWindow h _ rs1 src rd hnone
    | rett rs1 src =>
      cases hi
      exact fun hnone => entered_returnFromTrap h rs1 src hnone
    | _ => cases hi

/-! ### Why a window trap is raised -/

/-- A window trap is pending only because the next window on its way is marked. -/
def BarredBy (c c' : Cpu) : Prop :=
  ∀ t, c'.pendingTrap = some (windowTrap t) → c.isInvalid (c.neighbour t)

theorem BarredBy.of_none (h : c'.pendingTrap = none) : c.BarredBy c' := by
  intro t ht
  rw [h] at ht
  cases ht

/-- All other traps are no window traps. -/
theorem BarredBy.of_other {k : TrapKind} (h : c'.pendingTrap = some k)
    (hk : k ≠ .windowOverflow ∧ k ≠ .windowUnderflow) : c.BarredBy c' := by
  intro t ht
  rw [h] at ht
  cases t with
  | down => exact absurd (Option.some.inj ht) hk.1
  | up => exact absurd (Option.some.inj ht) hk.2

theorem barredBy_moveWindow (hp : c.pendingTrap = none) (t : Turn) (rs1 : Reg) (src : Operand)
    (rd : Reg) : c.BarredBy (c.moveWindow t rs1 src rd) := by
  by_cases hm : c.isInvalid (c.neighbour t)
  · rw [moveWindow_of_invalid hm]
    intro t' ht'
    have hturn : t = t' := by
      cases t <;> cases t' <;> first | rfl | cases ht'
    exact hturn ▸ hm
  · rw [moveWindow_of_clear hm]
    exact .of_none ((set_pendingTrap ..).trans hp)

theorem barredBy_operate (hp : c.pendingTrap = none) (i : Instr) : c.BarredBy (c.operate i) := by
  cases i with
  | save rs1 src rd | restore rs1 src rd => exact barredBy_moveWindow hp _ rs1 src rd
  | rett rs1 src =>
    simp only [operate, returnFromTrap]
    by_cases hm : c.isInvalid (c.neighbour .up)
    · rw [if_pos hm]
      intro t ht
      cases t with
      | up => exact hm
      | down => cases ht
    · rw [if_neg hm]
      split
      · exact .of_other rfl (by simp)
      · split
        · exact .of_other rfl (by simp)
        · exact .of_none hp
  | div signed setsIcc rs1 src rd =>
    simp only [operate, divide]
    split
    · exact .of_other rfl (by simp)
    · exact .of_none ((finish_pendingTrap ..).trans hp)
  | readState r rd =>
    simp only [operate, supervised]
    split
    · exact .of_none ((set_pendingTrap ..).trans hp)
    · exact .of_other rfl (by simp)
  | writeState rs1 src r =>
    simp only [operate, supervised]
    split
    · cases r with
      | psr =>
        simp only [setState]
        split
        · exact .of_none hp
        · exact .of_other rfl (by simp)
      | y | wim | tbr => exact .of_none hp
    · exact .of_other rfl (by simp)
  | trapIf cond rs1 src =>
    simp only [operate, trapIf]
    split
    · exact .of_other rfl (by simp)
    · exact .of_none hp
  | branch cond annul offset => exact .of_none ((branch_pendingTrap ..).trans hp)
  | call offset | jmpl rs1 src rd => exact .of_none ((link_pendingTrap ..).trans hp)
  | alu op setsIcc rs1 src rd | mul signed setsIcc rs1 src rd | mulscc rs1 src rd =>
    exact .of_none ((finish_pendingTrap ..).trans hp)
  | sethi v rd | shift op rs1 src rd => exact .of_none ((set_pendingTrap ..).trans hp)
  | nop | load kind alternate rs1 src rd | store kind rd rs1 src | unknown word =>
    exact .of_none hp

theorem barredBy_execute (hp : c.pendingTrap = none) (i : Instr) :
    (c.execute i).Always fun _ c' => c.BarredBy c' := by
  -- a load or a store leaves no trap or a data access trap
  have hset : ∀ c' r v, c.BarredBy c' → c.BarredBy (c'.set r v) := by
    intro c' r v h t ht
    rw [set_pendingTrap] at ht
    exact h t ht
  have hraise : ∀ c', c.BarredBy c' → c.BarredBy (c'.raise .dataAccess) := fun c' _ =>
    .of_other rfl (by simp)
  cases i with
  | load kind alternate rs1 src rd => exact always_load hset hraise (.of_none hp) ..
  | store kind rd rs1 src => exact always_store hraise (.of_none hp) ..
  | _ => exact barredBy_operate hp _

/-- **A window trap is raised only at a marked window.** -/
theorem always_step_windowTrap (hp : c.pendingTrap = none) : c.step.Always fun _ r =>
    ∀ trap c', r = (.trapped trap, c') → ∀ t, trap.kind = windowTrap t →
      c.isInvalid (c.neighbour t) := by
  have hfetch : ∀ t, TrapKind.instructionAccess ≠ windowTrap t := by
    intro t
    cases t <;> nofun
  refine always_step ?_ ?_ ?_ ?_ ?_ ?_
  · rintro - trap c' ⟨⟩ t ht
    exact absurd ht (hfetch t)
  · rintro e - trap c' ⟨⟩ t ht
    exact absurd ht (hfetch t)
  · intro word k _ hk
    rw [hp] at hk
    cases hk
  · rintro word - - - trap c' ⟨⟩
  · rintro word - - - - trap c' ⟨⟩
  · intro word _ _ _ _
    have hclear : c.clearZero.pendingTrap = none := hp
    refine (barredBy_execute hclear (Instr.ofWord word)).mono fun l c₁ hbarred trap c' h t ht => ?_
    unfold outcome at h
    split at h
    · rename_i k hk
      cases h
      exact hbarred t (hk.trans (congrArg some ht))
    · cases h

/-! ### Steps -/

/-- A step that completes has skipped its word or carried it out. -/
theorem entered_step (h : c.Shaped) (hp : c.pendingTrap = none) (hannul : c.pendingAnnul = false) :
    c.step.Always fun l r => ∀ word rest, l = .read c.pc (.ok word) :: rest →
      ¬ (Instr.ofWord word).setsWindows → ∀ c', r = (.completed, c') →
        c.Entered (Instr.ofWord word) c' := by
  refine always_step ?_ ?_ ?_ ?_ ?_ ?_
  · rintro - word rest ⟨⟩
  · rintro e - word rest ⟨⟩
  · rintro word k - hk
    rw [hp] at hk
    cases hk
  · rintro word - - hskip
    rw [hannul] at hskip
    cases hskip
  · rintro word - - - - word' rest ⟨⟩ - c' ⟨⟩
  · intro word _ _ _ _
    by_cases hs : (Instr.ofWord word).setsWindows
    · refine (within_execute c.clearZero (Instr.ofWord word)).mono ?_
      rintro l c₁ - word' rest ⟨⟩ hnot
      exact absurd hs hnot
    · refine (entered_execute h.clearZero hs).mono ?_
      rintro l c₁ hentered word' rest ⟨⟩ - c' hout
      unfold outcome at hout
      split at hout
      · cases hout
      · cases hout
        exact hentered ‹_›

/-- A delivery that is refused changes nothing. -/
theorem eq_of_refused {refused : Trap} (h : (c.deliver.hold bus s).1 = (some refused, c')) :
    c' = c := by
  cases hp : c.pendingTrap with
  | none =>
    have hdone : c.deliver = .done (none, c) := by
      unfold deliver
      rw [hp]
    rw [hdone] at h
    cases h
  | some k =>
    have hdelivers := (always_deliver_pending hp).hold bus s
    rw [h] at hdelivers
    exact hdelivers.2.2

/-- A step that does not complete leaves the windows as they were. -/
theorem stays_step (hp : c.pendingTrap = none) : c.step.Always fun _ r =>
    r.1 ≠ .completed → r.2.cwp = c.cwp ∧ r.2.wim = c.wim := by
  refine always_step ?_ ?_ ?_ ?_ ?_ ?_
  · exact fun _ _ => ⟨rfl, rfl⟩
  · exact fun _ _ _ => ⟨rfl, rfl⟩
  · exact fun _ _ _ _ _ => ⟨rfl, rfl⟩
  · exact fun _ _ _ _ hne => absurd rfl hne
  · exact fun _ _ _ _ _ _ => ⟨rfl, rfl⟩
  · intro word _ _ _ _
    have hclear : c.clearZero.pendingTrap = none := hp
    refine (execute_raises hclear (Instr.ofWord word)).mono ?_
    rintro l c₁ (hnone | ⟨k, ⟨hc₁, -⟩, -⟩) hne
    · rw [outcome_completed hnone] at hne
      exact absurd rfl hne
    · have hpending : c₁.pendingTrap = some k := by rw [hc₁]; rfl
      unfold outcome
      rw [hpending, hc₁]
      exact ⟨cutShort_cwp .., cutShort_wim ..⟩

end Cpu

/-! ### Between two rounds -/

open Window

/-- What holds between two rounds of an internal run with three windows: nothing
is pending, and the one mark is not on the current window. -/
structure SingleMark (c : Cpu) : Prop extends Cpu.Sound c where
  three : 3 ≤ c.windows
  mode : c.config.trapMode = .internal
  trap : c.pendingTrap = none
  target : c.branchTarget = none
  mark : ∃ p, c.Marked p ∧ p ≠ c.cwp

section Steps

variable {σ : Type} {bus : Bus σ} {s s₁ : σ} {c c' c₀ c₁ c₂ : Cpu} {trap : Trap} {l : List Round}

/-- What a change of the host's keeps of it, besides the mark. -/
theorem SingleMark.settled (h : SingleMark c) (hk : Cpu.Settles c c') (htrap : c'.pendingTrap = none)
    (hmark : ∃ p, c'.Marked p ∧ p ≠ c'.cwp) : SingleMark c' := by
  refine ⟨hk.sound h.toSound, ?_, ?_, htrap, hk.idle h.target, hmark⟩
  · rw [Cpu.windows, hk.config]
    exact h.three
  · rw [hk.config]
    exact h.mode

/-- What a step that completes has done. -/
theorem SingleMark.entered (h : SingleMark c) {word : Word} (hf : c.fetched bus s = some word)
    (hannul : c.pendingAnnul = false) (hs : ¬ (Instr.ofWord word).setsWindows)
    (hstep : (c.step.hold bus s).1 = (.completed, c')) : c.Entered (Instr.ofWord word) c' :=
  (Cpu.entered_step h.toShaped h.trap hannul).hold bus s word _ (Cpu.step_of_fetched h.trap hf).2 hs
    c' hstep

/-- A mark that is not on the window that is entered, or left where it is. -/
theorem SingleMark.mark_of_entered (h : SingleMark c) {i : Instr} (hentered : c.Entered i c')
    (hconfig : c'.config = c.config) : ∃ p, c'.Marked p ∧ p ≠ c'.cwp := by
  obtain ⟨p, hp, hne⟩ := h.mark
  obtain ⟨hwim, hmove⟩ := hentered
  refine ⟨p, hp.congr hconfig hwim, ?_⟩
  cases hi : i.enters with
  | none =>
    rw [hi] at hmove
    rwa [show c'.cwp = c.cwp from hmove]
  | some t =>
    rw [hi] at hmove
    obtain ⟨hclear, hcwp⟩ := hmove
    rw [hcwp]
    exact fun he => hclear ((hp.isInvalid_iff _).mpr he.symm)

theorem SingleMark.completed (h : SingleMark c) (hstep : (c.step.hold bus s).1 = (.completed, c'))
    (hs : ¬ Round.SetsWindows ⟨c, c.fetched bus s, none⟩) : SingleMark c' := by
  have hk : Cpu.Settles c c' := .of_step h.toSound hstep
  refine h.settled hk (Cpu.completed_pendingTrap hstep) ?_
  obtain ⟨word, hf, -⟩ := Cpu.completed_step h.target hstep
  by_cases hannul : c.pendingAnnul = true
  · -- a word that is skipped does nothing
    have hskip := (Cpu.step_annulled h.trap hannul hf).1
    rw [hstep] at hskip
    cases hskip
    obtain ⟨p, hp, hne⟩ := h.mark
    exact ⟨p, hp.congr rfl rfl, hne⟩
  · have hnot : ¬ (Instr.ofWord word).setsWindows := fun hsets =>
      hs ⟨rfl, Bool.eq_false_iff.mpr hannul, word, hf, hsets⟩
    have hentered := h.entered hf (Bool.eq_false_iff.mpr hannul) hnot hstep
    exact h.mark_of_entered hentered hk.config

/-- With internal traps only those of the windows are delivered. -/
theorem windowTrap_of_delivered (hmode : c.config.trapMode = .internal) {k : TrapKind}
    (hp : c.pendingTrap = some k) (hdeliver : (c.deliver.hold bus s).1 = (none, c')) :
    c'.pendingTrap = none ∧ ∃ t, k = Cpu.windowTrap t := by
  have hdelivers := (Cpu.always_deliver_pending hp).hold bus s
  rw [hdeliver] at hdelivers
  obtain ⟨hroutine, htrap, -⟩ := hdelivers
  refine ⟨htrap, ?_⟩
  by_cases hover : k = .windowOverflow
  · exact ⟨.down, hover⟩
  · by_cases hunder : k = .windowUnderflow
    · exact ⟨.up, hunder⟩
    · exact absurd (TrapMode.routine_eq_none_iff.mpr ⟨hmode, hover, hunder⟩) hroutine

/-- **The mark steps aside.** It stood on the next window, and the service moves
it one further on. -/
theorem SingleMark.delivered (h : SingleMark c) (hstep : (c.step.hold bus s).1 = (.trapped trap, c₁))
    (hdeliver : (c₁.deliver.hold bus s₁).1 = (none, c₂)) : SingleMark c₂ := by
  have hk₁ : Cpu.Settles c c₁ := .of_step h.toSound hstep
  have hk₂ : Cpu.Settles c₁ c₂ := .of_deliver (hk₁.sound h.toSound) hdeliver
  have hmode₁ : c₁.config.trapMode = .internal := by
    rw [hk₁.config]
    exact h.mode
  obtain ⟨hpending, -⟩ := Cpu.trapped_step h.trap hstep
  obtain ⟨htrap, t, ht⟩ := windowTrap_of_delivered hmode₁ hpending hdeliver
  have hkind : trap.kind = .windowOverflow ∨ trap.kind = .windowUnderflow := by
    rw [ht]
    cases t with
    | down => exact .inl rfl
    | up => exact .inr rfl
  have hleft := (Cpu.step_windowTrap h.trap).hold bus s trap c₁ hstep hkind
  have hbarred := (Cpu.always_step_windowTrap h.trap).hold bus s trap c₁ hstep t ht
  rw [ht] at hpending
  have hserve := (Cpu.always_deliver_window (hk₁.sound h.toSound).toShaped hmode₁ hpending).hold bus s₁
  rw [hdeliver] at hserve
  obtain ⟨-, hserved, -, hwim⟩ := hserve
  subst hleft
  obtain ⟨p, hp, hne⟩ := h.mark
  have hnext : Window.next c.windows t c.cwp = p := by
    rw [← Cpu.neighbour_eq_next h.toShaped]
    exact (hp.isInvalid_iff _).mp hbarred
  have hmoved : c₂.Marked (Window.next c.windows t p) :=
    (Cpu.moveMark_single h.toShaped hp t).congr hserved.config hwim
  refine h.settled (hk₁.trans hk₂) htrap ⟨_, hmoved, ?_⟩
  have hcwp : c₂.cwp = c.cwp := hserved.cwp
  rw [hcwp, ← hnext]
  exact Window.next_next_ne t h.three

theorem Driven.singleMark (h₀ : SingleMark c₀) (h : Driven bus c₀ l c)
    (hs : ∀ r ∈ l, ¬ r.SetsWindows) : SingleMark c := by
  induction h with
  | start => exact h₀
  | completed _ s hstep ih =>
    obtain ⟨hlast, hrest⟩ := List.forall_mem_cons.mp hs
    exact (ih hrest).completed hstep hlast
  | delivered _ s s₁ hstep hdeliver ih =>
    exact (ih (List.forall_mem_cons.mp hs).2).delivered hstep hdeliver

theorem Driven.config (h : Driven bus c₀ l c) : c.config = c₀.config := by
  induction h with
  | start => rfl
  | @completed l c c' _ s hstep ih =>
    have hkept := (Cpu.always_step_config c).hold bus s
    rw [hstep] at hkept
    exact Eq.trans hkept ih
  | @delivered l c c₁ c₂ t _ s s₁ hstep hdeliver ih =>
    have hkept₁ := (Cpu.always_step_config c).hold bus s
    have hkept₂ := (Cpu.always_deliver_config c₁).hold bus s₁
    rw [hstep] at hkept₁
    rw [hdeliver] at hkept₂
    exact (Eq.trans hkept₂ hkept₁).trans ih

theorem singleMark_reset {config : Configuration} (hc : Cpu.ofConfiguration config = .ok c₀)
    (h3 : 3 ≤ config.windows.toNat) (hmode : config.trapMode = .internal) (pc : Word) :
    SingleMark (c₀.reset pc) := by
  have hs := Cpu.fresh_sound hc
  have hconfig : c₀.config = config := by rw [(Cpu.ofConfiguration_ok hc).2]
  have hthree : 3 ≤ (c₀.reset pc).windows := by
    show 3 ≤ c₀.config.windows.toNat
    rwa [hconfig]
  refine ⟨(Cpu.settles_reset hs pc).sound hs, hthree, ?_, rfl, rfl, 1, ?_, ?_⟩
  · show c₀.config.trapMode = .internal
    rwa [hconfig]
  · exact Cpu.marked_of_wim_two (Nat.le_of_succ_le hthree) rfl
  · exact Nat.one_ne_zero

/-- Nothing is in the way of the instruction at hand. -/
theorem SingleMark.ready (h : SingleMark c) (ha : c.pc.isAligned) (hannul : c.pendingAnnul = false) :
    c.Ready := ⟨h.toShaped, h.mode, ha, h.trap, hannul, h.target⟩

end Steps

/-- **The mark stays single, and off the current window.** In internal mode with
three windows at least, let rounds be driven from a reset, whatever the bus
answers, and none of them carry out a write of the state register or the invalid
mask. Then the mask has exactly one bit, of a window that exists and is not the
current one; a step that traps or stops leaves mask and window as they were, and
so does a delivery that is refused. So a save, a restore or a return from a trap
that completes enters a clear window, and a save or a restore whose fetches
succeed completes after one delivery at most. -/
theorem single_mark {σ : Type} {config : Configuration} {c₀ c : Cpu}
    (hc : Cpu.ofConfiguration config = .ok c₀) (h3 : 3 ≤ config.windows.toNat)
    (hmode : config.trapMode = .internal) (pc : Word) (bus : Bus σ) {l : List Round}
    (h : Driven bus (c₀.reset pc) l c) (hs : ∀ r ∈ l, ¬ r.SetsWindows) :
    (∃ p < config.windows.toNat, p ≠ c.cwp ∧ ∀ w, c.wim.toNat.testBit w = decide (w = p)) ∧
    (∀ s, (c.step.hold bus s).1.1 ≠ .completed →
      ((c.step.hold bus s).1.2.cwp = c.cwp ∧ (c.step.hold bus s).1.2.wim = c.wim) ∧
      ∀ s₁ refused c₂, ((c.step.hold bus s).1.2.deliver.hold bus s₁).1 = (some refused, c₂) →
        c₂ = (c.step.hold bus s).1.2) ∧
    (∀ s word t c', c.fetched bus s = some word → c.pendingAnnul = false →
      (Instr.ofWord word).enters = some t → (c.step.hold bus s).1 = (.completed, c') →
        c'.cwp = c.neighbour t ∧ c.wim.toNat.testBit c'.cwp = false) ∧
    ∀ word t (s s' : Nat → σ), (Instr.ofWord word).turn = some t → c.pc.isAligned →
      c.pendingAnnul = false → (∀ k, (bus.read c.pc (s k)).1 = .ok word) →
        ∃ cs c', Cpu.retried bus 1 s s' c = (cs, .completed, c') ∧ c.Passes t c' := by
  have hmark := h.singleMark (singleMark_reset hc h3 hmode pc) hs
  have hwindows : c.windows = config.windows.toNat := by
    have hconfig : c.config = c₀.config := h.config
    rw [Cpu.windows, hconfig, (Cpu.ofConfiguration_ok hc).2]
  refine ⟨?_, fun s hne => ⟨?_, fun s₁ refused c₂ => Cpu.eq_of_refused⟩, ?_, ?_⟩
  · obtain ⟨p, hp, hne⟩ := hmark.mark
    refine ⟨p, hwindows ▸ hp.1, hne, fun w => ?_⟩
    rw [← Cpu.isInvalid_eq_testBit, hp.2]
  · exact (Cpu.stays_step hmark.trap).hold bus s hne
  · intro s word t c' hf hannul hi hstep
    obtain ⟨-, hentered⟩ := hmark.entered hf hannul (Instr.not_setsWindows hi) hstep
    rw [hi] at hentered
    refine ⟨hentered.2, ?_⟩
    rw [hentered.2, ← Cpu.isInvalid_eq_testBit]
    exact Bool.eq_false_iff.mpr hentered.1
  · intro word t s s' hi ha hannul hread
    obtain ⟨p, hp, -⟩ := hmark.mark
    obtain ⟨cs, c', hend, -, hpasses, -⟩ := Cpu.retried_completes hi (hmark.ready ha hannul)
      (hp.clearsIn hmark.toShaped t) s s' hread
    exact ⟨cs, c', hend, hpasses⟩

/-- Three windows with internal traps, at address 0. -/
def startThree : Cpu :=
  { resetTwo with
    regs := Array.replicate 56 0, config := { windows := 3, trapMode := .internal } }

/-- Saves without end: the second one finds the mark in front of it, and the mark
steps aside to the window the first one came from. -/
theorem single_mark_three_saves : ∃ l c, Driven saveBus (startThree.reset 0) l c ∧
    (∀ r ∈ l, ¬ r.SetsWindows) ∧ l.map Round.trap = [none, some ⟨.windowOverflow, 4, 8⟩, none] ∧
      c.cwp = 1 ∧ ∃ p < 3, p ≠ c.cwp ∧ ∀ w, c.wim.toNat.testBit w = decide (w = p) := by
  have hfresh : Cpu.ofConfiguration { windows := 3, trapMode := .internal } = .ok startThree := rfl
  have hreset : startThree.reset 0 = startThree := by decide +kernel
  let c₁ := (startThree.step.hold saveBus ()).1.2
  let c₂ := (c₁.step.hold saveBus ()).1.2
  let c₃ := (c₂.deliver.hold saveBus ()).1.2
  let c₄ := (c₃.step.hold saveBus ()).1.2
  have hfirst : ((startThree.reset 0).step.hold saveBus ()).1 = (.completed, c₁) := by
    rw [hreset]
    exact Prod.ext (by decide +kernel) rfl
  have htrap : (c₁.step.hold saveBus ()).1 = (.trapped ⟨.windowOverflow, 4, 8⟩, c₂) :=
    Prod.ext (by decide +kernel) rfl
  have hserved : (c₂.deliver.hold saveBus ()).1 = (none, c₃) := Prod.ext (by decide +kernel) rfl
  have hagain : (c₃.step.hold saveBus ()).1 = (.completed, c₄) := Prod.ext (by decide +kernel) rfl
  have hdriven := ((Driven.start.completed () hfirst).delivered () () htrap hserved).completed () hagain
  have hsave : ¬ (Instr.ofWord 0xb1e02007).setsWindows := by decide
  have hs : ∀ c : Cpu, c.fetched saveBus () = some 0xb1e02007 →
      ¬ Round.SetsWindows ⟨c, c.fetched saveBus (), none⟩ := by
    rintro c hf ⟨-, -, word, hword, hsets⟩
    obtain rfl := Option.some.inj (hf.symm.trans hword)
    exact hsave hsets
  have hrounds : ∀ r ∈ ([⟨c₃, c₃.fetched saveBus (), none⟩,
      ⟨c₁, c₁.fetched saveBus (), some ⟨.windowOverflow, 4, 8⟩⟩,
      ⟨startThree.reset 0, (startThree.reset 0).fetched saveBus (), none⟩] : List Round),
      ¬ r.SetsWindows := by
    simp only [List.forall_mem_cons]
    refine ⟨hs _ (by decide +kernel), ?_, hs _ (by decide +kernel), List.forall_mem_nil _⟩
    rintro ⟨⟨⟩, -⟩
  obtain ⟨hmark, -⟩ := single_mark hfresh (by decide) rfl 0 saveBus hdriven hrounds
  exact ⟨_, c₄, hdriven, hrounds, rfl, by decide +kernel, hmark⟩

end SparcIU
