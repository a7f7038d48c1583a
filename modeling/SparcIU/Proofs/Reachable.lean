/-
# What every reachable state satisfies

A host builds a processor and then calls its operations in any order. Whatever
it calls, the processor stays in order (`Cpu.Sound`). As long as no record is
loaded, the invalid mask and the trap base register have no stray bits
(`Cpu.Masked`) and no target is queued between two calls (`Cpu.Settles`).
`reachable_invariant` is the sum over a row of calls.

Key definitions: `Cpu.Settles`, `HostCall`, `HostCall.applyAll`.
Key theorems: `Cpu.settles_runFrom`, `Cpu.sound_loadRecord`,
`HostCall.settles_apply`, `HostCall.sound_apply`, `reachable_invariant`.
-/
import SparcIU.Proofs.Budgets
import SparcIU.Proofs.Keeping
import SparcIU.Record

namespace SparcIU
namespace Cpu

variable {c c' c'' : Cpu}

/-! ### Runs -/

/-- The change between two operations of the host. -/
structure Settles (c c' : Cpu) : Prop extends Keeps c c' where
  idle : c.branchTarget = none → c'.branchTarget = none

theorem Settles.refl (c : Cpu) : Settles c c := ⟨.refl c, id⟩

theorem Settles.trans (h : Settles c c') (h' : Settles c' c'') : Settles c c'' :=
  ⟨h.toKeeps.trans h'.toKeeps, fun hc => h'.idle (h.idle hc)⟩

variable {σ : Type}

theorem settles_step (hs : c.Sound) (bus : Bus σ) (s : σ) : Settles c (c.step.hold bus s).1.2 :=
  ⟨(keeps_step hs).hold bus s, fun h => (always_step_idle h).hold bus s⟩

theorem settles_deliver (hs : c.Sound) (bus : Bus σ) (s : σ) :
    Settles c (c.deliver.hold bus s).1.2 :=
  ⟨(keeps_deliver hs).hold bus s, fun h => ((always_deliver_target hs).hold bus s).trans h⟩

theorem Settles.of_step {bus : Bus σ} {s : σ} {result : StepResult} (hs : c.Sound)
    (h : (c.step.hold bus s).1 = (result, c')) : Settles c c' := by
  have hkeeps := settles_step hs bus s
  rwa [h] at hkeeps

theorem Settles.of_deliver {bus : Bus σ} {s : σ} {refused : Option Trap} (hs : c.Sound)
    (h : (c.deliver.hold bus s).1 = (refused, c')) : Settles c c' := by
  have hkeeps := settles_deliver hs bus s
  rwa [h] at hkeeps

/-- A run keeps what its rounds keep, whenever it ends. -/
theorem settles_runFrom (hs : c.Sound) (bus : Bus σ) (stop : Nat → σ → Bool)
    (budget steps asked : Nat) (s : σ) : Settles c (runFrom bus stop budget steps asked c s).cpu :=
  runFrom_keeps (fun _ s h => h.trans (settles_step (h.sound hs) bus s))
    (fun _ s h => h.trans (settles_deliver (h.sound hs) bus s)) budget steps asked s (.refl c)

/-! ### What the host does -/

theorem settles_reset (hs : c.Sound) (pc : Word) : Settles c (c.reset pc) := by
  have hsound : (c.reset pc).Sound := ⟨hs.toShaped.reset pc, getD_reset c pc 0, by rintro t ⟨⟩⟩
  have hmasked : (c.reset pc).Masked := masked_of_wim_two hs.two_le rfl rfl
  exact ⟨⟨rfl, fun _ => hsound, fun _ _ => hmasked⟩, fun _ => rfl⟩

theorem settles_set (c : Cpu) (r : Reg) (v : Word) : Settles c (c.set r v) :=
  ⟨keeps_set c r v, fun h => (set_branchTarget c r v).trans h⟩

theorem settles_rotate (hs : c.Sound) (t : Turn) : Settles c (c.rotate t) := ⟨keeps_rotate hs t, id⟩

theorem settles_raise (c : Cpu) {t : TrapKind} (ht : t.Small) : Settles c (c.raise t) :=
  ⟨keeps_raise c ht, id⟩

/-! ### Loading a record -/

/-- What the fields of a record keep while it is laid over a processor. -/
structure Overlaid (c c' : Cpu) : Prop extends Shaped c' where
  config : c'.config = c.config
  small : ∀ t, c'.pendingTrap = some t → t.Small

theorem small_ofCode {code : UInt8} {t : TrapKind} (h : TrapKind.ofCode code = some t) :
    t.Small := by
  rintro n rfl
  unfold TrapKind.ofCode at h
  split at h
  · cases h
    rw [UInt8.lt_iff_toNat_lt, UInt8.toNat_mod]
    exact Nat.mod_lt _ (by decide)
  · split_ifs at h <;> cases h

theorem overlaid_psrField {w : Word} (h : Overlaid c c') (hw : psrField c' w = .ok c'') :
    Overlaid c c'' := by
  unfold psrField at hw
  simp only at hw
  split at hw
  · rename_i hlt
    cases hw
    exact ⟨h.toShaped.congr rfl rfl hlt, h.config, h.small⟩
  · cases hw

theorem overlaid_trapField {w : Word} (h : Overlaid c c') (hw : trapField c' w = .ok c'') :
    Overlaid c c'' := by
  have hput : ∀ p : Option TrapKind, (∀ t, p = some t → t.Small) →
      Overlaid c { c' with pendingTrap := p } := fun p hp =>
    ⟨h.toShaped.congr rfl rfl h.cwp_lt, h.config, hp⟩
  unfold trapField at hw
  split at hw
  · cases hw
    exact hput none (by rintro t ⟨⟩)
  · split at hw
    · cases hw
    · split at hw
      · cases hw
      · rename_i t ht
        cases hw
        refine hput (some t) ?_
        rintro t' ⟨⟩
        exact small_ofCode ht

/-- Every field of a record keeps the processor in shape or refuses its word. -/
theorem overlaid_field {n : Nat} {field : RecordField} (hf : field ∈ recordFields n) {w : Word}
    (h : Overlaid c c') (hw : field c' w = .ok c'') : Overlaid c c'' := by
  simp only [recordFields, List.cons_append, List.mem_cons, List.mem_append, List.mem_map,
    List.mem_range, List.not_mem_nil, or_false] at hf
  have hplain : ∀ x : Cpu, x.config = c'.config → x.regs.size = c'.regs.size → x.psr = c'.psr →
      x.pendingTrap = c'.pendingTrap → Overlaid c x := by
    intro x hconfig hsize hpsr htrap
    refine ⟨h.toShaped.congr hconfig hsize ?_, hconfig.trans h.config, htrap ▸ h.small⟩
    rw [cwp, hpsr]
    exact h.cwp_lt
  rcases hf with rfl | rfl | ⟨i, -, rfl⟩ | rfl | rfl | rfl | rfl | rfl | rfl | rfl
  case inr.inr.inr.inl => exact overlaid_psrField h hw
  case inr.inr.inr.inr.inr.inr.inr.inl => exact overlaid_trapField h hw
  case inr.inr.inl =>
    cases hw
    exact hplain _ rfl Array.size_setIfInBounds rfl rfl
  all_goals
    cases hw
    exact hplain _ rfl rfl rfl rfl

theorem overlaid_overlay {fields : List RecordField} (ws : List Word)
    (hf : ∀ f ∈ fields, ∀ c' w c'', Overlaid c c' → f c' w = .ok c'' → Overlaid c c'')
    (h : Overlaid c c') (hw : overlay fields ws c' = .ok c'') : Overlaid c c'' := by
  induction fields generalizing ws c' with
  | nil =>
    cases hw
    exact h
  | cons field fields ih =>
    cases ws with
    | nil =>
      cases hw
      exact h
    | cons w ws =>
      simp only [overlay] at hw
      split at hw
      · cases hw
      · rename_i c₁ hc₁
        have h₁ := hf field List.mem_cons_self c' w c₁ h hc₁
        exact ih ws (fun f hf' => hf f (List.mem_cons_of_mem _ hf')) h₁ hw

/-- A record that is accepted leaves the processor in order, whatever it says. -/
theorem sound_loadRecord (hs : c.Sound) {bytes : ByteArray} {order : ByteOrder}
    (hw : c.loadRecord bytes order = .ok c') : c'.config = c.config ∧ c'.Sound := by
  unfold loadRecord at hw
  split at hw
  · cases hw
  · split at hw
    · cases hw
    · split at hw
      · cases hw
      · split at hw
        · cases hw
        · rename_i c₁ hc₁
          cases hw
          have h₁ := overlaid_overlay _ (fun f hf c' w c'' => overlaid_field hf)
            ⟨hs.toShaped, rfl, hs.small⟩ hc₁
          exact ⟨h₁.config, ⟨h₁.toShaped.congr rfl Array.size_setIfInBounds h₁.cwp_lt,
            clearZero_zero c₁, h₁.small⟩⟩

end Cpu

/-! ### Rows of calls -/

/-- What a host can do with a processor and its device. -/
inductive HostCall (σ : Type) where
  | reset (pc : Word)
  | step
  | run (stop : Nat → σ → Bool) (budget : Nat)
  | deliver
  | setReg (n : UInt8) (v : Word)
  | rotate (t : Turn)
  /-- Raises the trap a number stands for, if it stands for one. -/
  | raise (code : UInt8)
  | loadRecord (bytes : ByteArray) (order : ByteOrder)

namespace HostCall

open Cpu (Settles)

variable {σ : Type}

def isLoad : HostCall σ → Bool
  | loadRecord _ _ => true
  | _ => false

/-- The processor and the device after a call. -/
def apply (bus : Bus σ) : HostCall σ → Cpu × σ → Cpu × σ
  | reset pc, (c, s) => (c.reset pc, s)
  | step, (c, s) => ((c.step.hold bus s).1.2, (c.step.hold bus s).2)
  | run stop budget, (c, s) => ((c.run bus stop budget s).cpu, (c.run bus stop budget s).device)
  | deliver, (c, s) => ((c.deliver.hold bus s).1.2, (c.deliver.hold bus s).2)
  | setReg n v, (c, s) => (c.set (Reg.ofNat n.toNat) v, s)
  | rotate t, (c, s) => (c.rotate t, s)
  | raise code, (c, s) =>
    match TrapKind.ofCode code with
    | some t => (c.raise t, s)
    | none => (c, s)
  | loadRecord bytes order, (c, s) =>
    match c.loadRecord bytes order with
    | .ok c' => (c', s)
    | .error _ => (c, s)

/-- The processor and the device after a row of calls. -/
def applyAll (bus : Bus σ) (calls : List (HostCall σ)) (x : Cpu × σ) : Cpu × σ :=
  calls.foldl (fun x call => call.apply bus x) x

/-- A call that loads no record keeps everything. -/
theorem settles_apply (bus : Bus σ) {call : HostCall σ} (hload : ¬ call.isLoad) {x : Cpu × σ}
    (hs : x.1.Sound) : Settles x.1 (call.apply bus x).1 := by
  cases call with
  | reset pc => exact Cpu.settles_reset hs pc
  | step => exact Cpu.settles_step hs bus x.2
  | run stop budget => exact Cpu.settles_runFrom hs bus stop budget 0 0 x.2
  | deliver => exact Cpu.settles_deliver hs bus x.2
  | setReg n v => exact Cpu.settles_set ..
  | rotate t => exact Cpu.settles_rotate hs t
  | raise code =>
    simp only [apply]
    split
    · exact Cpu.settles_raise _ (Cpu.small_ofCode ‹_›)
    · exact .refl _
  | loadRecord bytes order => exact absurd rfl hload

/-- A call keeps the configuration and the processor in order. -/
theorem sound_apply (bus : Bus σ) (call : HostCall σ) {x : Cpu × σ} (hs : x.1.Sound) :
    (call.apply bus x).1.config = x.1.config ∧ (call.apply bus x).1.Sound := by
  by_cases hload : call.isLoad
  · cases call with
    | loadRecord bytes order =>
      simp only [apply]
      split
      · exact Cpu.sound_loadRecord hs ‹_›
      · exact ⟨rfl, hs⟩
    | _ => cases hload
  · have h := settles_apply bus hload hs
    exact ⟨h.config, h.sound hs⟩

theorem sound_applyAll (bus : Bus σ) (calls : List (HostCall σ)) {x : Cpu × σ} (hs : x.1.Sound) :
    (applyAll bus calls x).1.config = x.1.config ∧ (applyAll bus calls x).1.Sound := by
  induction calls generalizing x with
  | nil => exact ⟨rfl, hs⟩
  | cons call calls ih =>
    have h := sound_apply bus call hs
    have hrest := ih h.2
    exact ⟨hrest.1.trans h.1, hrest.2⟩

theorem settles_applyAll (bus : Bus σ) {calls : List (HostCall σ)}
    (hload : ∀ call ∈ calls, ¬ call.isLoad) {x : Cpu × σ} (hs : x.1.Sound) :
    Settles x.1 (applyAll bus calls x).1 := by
  induction calls generalizing x with
  | nil => exact .refl _
  | cons call calls ih =>
    have h := settles_apply bus (hload call List.mem_cons_self) hs
    exact h.trans (ih (fun call' hc => hload call' (List.mem_cons_of_mem _ hc)) (h.sound hs))

end HostCall

/-! ### The invariant -/

/-- **What every reachable state satisfies.** Whatever a host calls, and in
whatever order, the file keeps its length, the current window exists, register 0
of the file is zero, the configuration is the one the processor was built with,
and a pending software trap has seven bits. If no record was loaded, the invalid
mask has no stray bit, no target is queued and the low four bits of the trap
base register are clear. -/
theorem reachable_invariant {σ : Type} {config : Configuration} {c₀ : Cpu}
    (hc : Cpu.ofConfiguration config = .ok c₀) (bus : Bus σ) (s : σ) (calls : List (HostCall σ)) :
    let c := (HostCall.applyAll bus calls (c₀, s)).1
    (c.regs.size = 8 + 16 * config.windows.toNat ∧ c.cwp < config.windows.toNat ∧
      c.regs[0]? = some 0 ∧ c.config = config ∧
      ∀ n, c.pendingTrap = some (.software n) → n < 0x80) ∧
    ((∀ call ∈ calls, ¬ call.isLoad) →
      (∀ w, config.windows.toNat ≤ w → c.wim.toNat.testBit w = false) ∧
        c.branchTarget = none ∧ c.tbr % 16 = 0) := by
  intro c
  have hs₀ := Cpu.fresh_sound hc
  have hc₀ := (Cpu.ofConfiguration_ok hc).2
  have hconfig₀ : c₀.config = config := by rw [hc₀]
  obtain ⟨hconfig, hs⟩ := HostCall.sound_applyAll bus calls (x := (c₀, s)) hs₀
  have hconfig : c.config = config := hconfig.trans hconfig₀
  have hwin : c.windows = config.windows.toNat := by rw [Cpu.windows, hconfig]
  refine ⟨⟨hwin ▸ hs.size, hwin ▸ hs.cwp_lt, ?_, hconfig, fun n hn => hs.small _ hn n rfl⟩, ?_⟩
  · have hzero := hs.zero
    have hlt : 0 < c.regs.size := by rw [hs.size]; omega
    rw [Array.getD_eq_getD_getElem?] at hzero
    rw [Array.getElem?_eq_getElem hlt] at hzero ⊢
    exact congrArg some hzero
  · intro hload
    have h := HostCall.settles_applyAll bus hload (x := (c₀, s)) hs₀
    have hm : c.Masked := h.masked hs₀ (Cpu.fresh_masked hc)
    refine ⟨fun w hw => ?_, h.idle (by rw [hc₀]), hm.tbr⟩
    rw [← Cpu.isInvalid_eq_testBit]
    exact hm.wim w (hwin ▸ hw)

/-- A double load that is cut short one window down, its delivery, and a
software trap. -/
theorem reachable_invariant_double_load :
    Cpu.ofConfiguration { windows := 2 } = .ok resetTwo ∧
      let c := (HostCall.applyAll doubleLoadBus [.rotate .down, .step, .deliver, .raise 0xff]
        (resetTwo, ())).1
      (c.regs.size = 40 ∧ c.cwp < 2 ∧ c.regs[0]? = some 0 ∧ c.config = { windows := 2 } ∧
        ∀ n, c.pendingTrap = some (.software n) → n < 0x80) ∧
      (∀ w, 2 ≤ w → c.wim.toNat.testBit w = false) ∧ c.branchTarget = none ∧ c.tbr % 16 = 0 := by
  have hc : Cpu.ofConfiguration { windows := 2 } = .ok resetTwo := rfl
  have h := reachable_invariant hc doubleLoadBus () [.rotate .down, .step, .deliver, .raise 0xff]
  exact ⟨hc, h.1, h.2 (by decide)⟩

end SparcIU
