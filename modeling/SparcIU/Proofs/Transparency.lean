/-
# Register windows are transparent

A program of register instructions on a processor that serves its own window
traps does what it does on a machine with a frame for every call. Each
instruction completes, at once or after one trap that is served (`Completes`),
and after it the processor shows what the reference machine holds (`Follows`).
The program must keep to the discipline of the stack (`Disciplined`): every
caller has an area of its own off the program, a callee leaves its frame pointer
alone, and no restore goes past the first frame.

Key definitions: `Follows`.
Key theorems: `Follows.run`, `follows_take`, `window_transparency`.
-/
import SparcIU.Proofs.Lockstep
import SparcIU.Proofs.Keeping
import SparcIU.Execution.Run

namespace SparcIU

open Window

variable {σ : Type} {bus : Bus σ} {mem : WorkingMemory bus}
variable {c c' : Cpu} {s s' : σ} {m m' : Frames} {r : Nat} {pc : Word}

/-! ### Programs -/

/-- A run from `c₀` and `s₀` has carried out the words of a list in `n` rounds
and come to `c` and `s`; the reference machine has carried them out too and come
to `m`, and after every word the processor showed what the reference held. -/
inductive Follows (bus : Bus σ) (c₀ : Cpu) (s₀ : σ) :
    List Word → Nat → Cpu → σ → Frames → Prop where
  | start (hagrees : c₀.Agrees .start) : Follows bus c₀ s₀ [] 0 c₀ s₀ .start
  | next {words : List Word} {n : Nat} {c : Cpu} {s : σ} {m : Frames} {word : Word} {n' : Nat}
    {c' : Cpu} {s' : σ} {fresh : Reg → Word} {m' : Frames} (hfollows : Follows bus c₀ s₀ words n c s m)
    (hcompletes : Completes bus n c s n' c' s')
    (hperform : m.perform fresh (Instr.ofWord word) = some m') (hagrees : c'.Agrees m') :
    Follows bus c₀ s₀ (words ++ [word]) n' c' s' m'

/-- A run goes through the rounds of an instruction that completes. -/
theorem Completes.runFrom {n n' : Nat} (h : Completes bus n c s n' c' s') (budget : Nat) :
    Cpu.runFrom bus (fun _ _ => false) (n' - n + budget) n n c s =
      Cpu.runFrom bus (fun _ _ => false) budget n' n' c' s' := by
  cases h with
  | atOnce hstep =>
    rw [show n + 1 - n + budget = budget + 1 by omega, Cpu.runFrom_completed rfl hstep]
  | served hstep hkind hserved hretry =>
    rw [show n + 2 - n + budget = budget + 1 + 1 by omega,
      Cpu.runFrom_delivered rfl hstep hserved, Cpu.runFrom_completed rfl hretry]

theorem Completes.lt {n n' : Nat} (h : Completes bus n c s n' c' s') : n < n' := by
  cases h with
  | atOnce => exact Nat.lt_succ_self n
  | served => omega

/-- A run does what was followed. -/
theorem Follows.runFrom {c₀ : Cpu} {s₀ : σ} {words : List Word} {n : Nat}
    (h : Follows bus c₀ s₀ words n c s m) (budget : Nat) :
    Cpu.runFrom bus (fun _ _ => false) (n + budget) 0 0 c₀ s₀ =
      Cpu.runFrom bus (fun _ _ => false) budget n n c s := by
  induction h generalizing budget with
  | start => rw [Nat.zero_add]
  | @next _ n _ _ _ _ n' _ _ _ _ _ hcompletes _ _ ih =>
    have hlt := hcompletes.lt
    rw [← hcompletes.runFrom budget, ← ih, show n' + budget = n + (n' - n + budget) by omega]

theorem Follows.run {c₀ : Cpu} {s₀ : σ} {words : List Word} {n : Nat}
    (h : Follows bus c₀ s₀ words n c s m) :
    Cpu.run bus (fun _ _ => false) n c₀ s₀ = ⟨.budgetSpent, n, n + 1, c, s⟩ := by
  have hrun := h.runFrom 0
  rw [Nat.add_zero] at hrun
  exact hrun

/-- A processor after a reset shows one frame of zeros. -/
theorem agrees_reset (c : Cpu) (pc : Word) : (c.reset pc).Agrees .start := by
  refine ⟨rfl, rfl, ?_⟩
  intro q
  have hstart : Frames.start.get q = 0 := by
    unfold Frames.get
    split <;> rfl
  rw [Cpu.get_reset, hstart]

/-- After a reset the coupling holds: there is no caller yet. -/
theorem along_reset (mem : WorkingMemory bus) (base : Word) (len : Nat) (s : σ) (hs : c.Shaped)
    (h3 : 3 ≤ c.windows) (hmode : c.config.trapMode = .internal) (pc : Word) :
    Along mem base len (c.reset pc) s .start 0 pc := by
  have hreset : (c.reset pc).Shaped := hs.reset pc
  have hnone : ∀ (j : Nat) a, Frames.start.callers[j]? ≠ some a := by
    intro j a ha
    have hempty : Frames.start.callers[j]? = none := List.getElem?_nil
    rw [hempty] at ha
    cases ha
  have hmark : (c.reset pc).Marked (up (c.reset pc).windows (c.reset pc).cwp (0 + 1)) := by
    have hup : up (c.reset pc).windows (c.reset pc).cwp (0 + 1) = 1 := if_pos hs.two_le
    rw [hup]
    exact Cpu.marked_of_wim_two hs.two_le rfl
  have hcoupled : Coupled mem (c.reset pc) s .start 0 :=
    { shaped := hreset
      agrees := agrees_reset c pc
      room := hreset.two_le
      depth := Nat.zero_le _
      mark := hmark
      resident := fun j a hj => absurd hj (Nat.not_lt_zero j)
      spilled := fun j a _ ha => absurd ha (hnone j a) }
  have hstacked : Stacked mem s base len Frames.start.callers :=
    { fits := fun a ha => absurd ha List.not_mem_nil
      apart := .nil
      linked := fun j a b ha => absurd ha (hnone j a) }
  exact ⟨h3, ⟨rfl, rfl, rfl, rfl, rfl, hmode⟩, hcoupled, hstacked⟩

/-- A disciplined program is followed word by word. -/
theorem follows_take {base : Word} {c₀ : Cpu} {s₀ : σ} {code : List Word} (hbase : base.isAligned)
    (hstart : Along mem base code.length c₀ s₀ .start 0 base)
    (hcode : ∀ k word, code[k]? = some word →
      mem.view s₀ (slot base k) = some word ∧ (Instr.ofWord word).framed)
    (hdis : ∀ words word rest n c s m, code = words ++ word :: rest →
      Follows bus c₀ s₀ words n c s m →
        Disciplined mem s₀ base code.length m (Instr.ofWord word)) {k : Nat} (hk : k ≤ code.length) :
    ∃ n c s m r, Follows bus c₀ s₀ (code.take k) n c s m ∧
      Along mem base code.length c s m r (slot base k) ∧ SameProgram mem base code.length s₀ s := by
  induction k with
  | zero =>
    rw [List.take_zero, slot_zero]
    exact ⟨0, c₀, s₀, .start, 0, .start hstart.coupled.agrees, hstart, .of_view rfl⟩
  | succ k ih =>
    obtain ⟨n, c, s, m, r, hfollows, halong, hsame⟩ := ih (Nat.le_of_succ_le hk)
    have hword : code[k]? = some code[k] := List.getElem?_eq_getElem hk
    obtain ⟨hview, hframed⟩ := hcode k _ hword
    have hsplit : code = code.take k ++ code[k] :: code.drop (k + 1) := by
      rw [← List.drop_eq_getElem_cons hk, List.take_append_drop]
    have hdisciplined := (hdis _ _ _ n c s m hsplit hfollows).of_sameExtent hsame.extent
    obtain ⟨n', c', s', fresh, m', r', hcompletes, hperform, halong', hsame'⟩ :=
      halong.advances hk hbase ((hsame.code k hk).trans hview) hframed hdisciplined n
    rw [slot_add_four] at halong'
    refine ⟨n', c', s', m', r', ?_, halong', hsame.trans hsame'⟩
    rw [List.take_add_one, hword]
    exact .next hfollows hcompletes hperform halong'.coupled.agrees

/-- **Register windows are transparent.** A processor with three windows or more
that serves its own window traps is reset to the start of a program of register
instructions. If the program keeps to the discipline of the stack as far as it
gets, then every instruction completes, the only traps on the way are window
traps that are served, and after every instruction `%y`, the flags and all
registers are those of the reference machine. The run is that of `Cpu.run`. -/
theorem window_transparency (mem : WorkingMemory bus) {config : Configuration}
    (hc : Cpu.ofConfiguration config = .ok c) (h3 : 3 ≤ config.windows.toNat)
    (hmode : config.trapMode = .internal) {base : Word} (hbase : base.isAligned) {s : σ}
    {code : List Word}
    (hcode : ∀ k word, code[k]? = some word →
      mem.view s (slot base k) = some word ∧ (Instr.ofWord word).framed)
    (hdis : ∀ words word rest n c' s' m, code = words ++ word :: rest →
      Follows bus (c.reset base) s words n c' s' m →
        Disciplined mem s base code.length m (Instr.ofWord word)) :
    ∃ n c' s' m, Follows bus (c.reset base) s code n c' s' m ∧
      Cpu.run bus (fun _ _ => false) n (c.reset base) s = ⟨.budgetSpent, n, n + 1, c', s'⟩ := by
  have hconfig : c.config = config := by rw [(Cpu.ofConfiguration_ok hc).2]
  have hs : c.Shaped := (Cpu.fresh_sound hc).toShaped
  have hstart : Along mem base code.length (c.reset base) s .start 0 base :=
    along_reset mem base code.length s hs (by rw [Cpu.windows, hconfig]; exact h3)
      (by rw [hconfig]; exact hmode) base
  obtain ⟨n, c', s', m, r, hfollows, -, -⟩ := follows_take hbase hstart hcode hdis (Nat.le_refl _)
  rw [List.take_length] at hfollows
  exact ⟨n, c', s', m, hfollows, hfollows.run⟩

/-! ### Two calls deep and back -/

/-- Two calls deep and back: the stack pointer is set to 256, then there are two
saves that take 64 bytes each, and two restores. -/
def twoCalls : List Word := [0x9c002100, 0x9de3bfc0, 0x9de3bfc0, 0x81e80000, 0x81e80000]

/-- A memory of 1024 bytes with the program at its start. -/
def twoCallsRam : Ram :=
  { bytes := (ByteStore.zeros 1024).setAll 0 (twoCalls.flatMap ByteOrder.big.bytes), base := 0
    order := .big }

theorem twoCallsRam_view {a : Word} (ha : a.isAligned) (hsize : a.toNat + 4 ≤ 1024) :
    twoCallsRam.view a = some (twoCallsRam.wordAt a.toNat) := by
  have hbase : a - twoCallsRam.base = a := UInt32.sub_zero a
  rw [← congrArg UInt32.toNat hbase] at hsize ⊢
  refine Ram.view_of_range ha (UInt32.zero_le) ?_
  rw [show twoCallsRam.bytes.size = 1024 from Ram.size_setAll ..]
  exact hsize

theorem twoCallsRam_code : ∀ k word, twoCalls[k]? = some word →
    twoCallsRam.view (slot 0 k) = some word ∧ (Instr.ofWord word).framed := by
  have hbytes : ∀ i < 20, twoCallsRam.bytes.get i = (twoCalls.flatMap ByteOrder.big.bytes).getD i 0 := by
    intro i hi
    have hlen : (twoCalls.flatMap ByteOrder.big.bytes).length = 20 := rfl
    show ((ByteStore.zeros 1024).setAll 0 _).get i = _
    rw [Ram.get_setAll _ _ (by rw [hlen]; decide), hlen, if_pos (by omega), Nat.sub_zero]
  have hword : ∀ k < 5, twoCalls[k]? = some (ByteOrder.big.word
      ((twoCalls.flatMap ByteOrder.big.bytes).getD (4 * k) 0)
      ((twoCalls.flatMap ByteOrder.big.bytes).getD (4 * k + 1) 0)
      ((twoCalls.flatMap ByteOrder.big.bytes).getD (4 * k + 2) 0)
      ((twoCalls.flatMap ByteOrder.big.bytes).getD (4 * k + 3) 0)) := by decide
  have hframed : ∀ k < 5, (Instr.ofWord (twoCalls.getD k 0)).framed := by decide
  have hslot : ∀ k < 5, (slot 0 k).isAligned ∧ (slot 0 k).toNat = 4 * k := by decide
  intro k word h
  have hk : k < 5 := (List.getElem?_eq_some_iff.mp h).1
  obtain ⟨haligned, hvalue⟩ := hslot k hk
  have hget : twoCalls.getD k 0 = word := by
    rw [List.getD_eq_getElem?_getD, h]
    rfl
  refine ⟨?_, hget ▸ hframed k hk⟩
  rw [twoCallsRam_view haligned (by omega), hvalue, ← h, hword k hk]
  unfold Ram.wordAt
  rw [hbytes _ (by omega), hbytes _ (by omega), hbytes _ (by omega), hbytes _ (by omega)]
  rfl

/-- The areas of the callers lie in the memory, off the program. -/
theorem twoCallsRam_fits {sp : Word} (h : sp = 256 ∨ sp = 192) :
    Fits Ram.workingMemory twoCallsRam 0 twoCalls.length sp := by
  have harea : ∀ k < 16, ((slot 256 k).isAligned ∧ (slot 256 k).toNat + 4 ≤ 1024) ∧
      (slot 192 k).isAligned ∧ (slot 192 k).toNat + 4 ≤ 1024 := by decide
  have hoff : ∀ k < 16, ∀ i < 5, slot 256 k ≠ slot 0 i ∧ slot 192 k ≠ slot 0 i := by decide
  have hview : ∀ a : Word, a.isAligned ∧ a.toNat + 4 ≤ 1024 → (twoCallsRam.view a).isSome := by
    rintro a ⟨haligned, hsize⟩
    rw [twoCallsRam_view haligned hsize]
    rfl
  rcases h with rfl | rfl
  · refine ⟨by decide, fun k hk => ⟨?_, trivial⟩, fun k hk i hi => (hoff k hk i hi).1⟩
    exact hview _ (harea k hk).1
  · refine ⟨by decide, fun k hk => ⟨?_, trivial⟩, fun k hk i hi => (hoff k hk i hi).2⟩
    exact hview _ (harea k hk).2

/-- What the reference machine holds before word `k`. -/
def TwoCallsAt : Nat → Frames → Prop
  | 0, m => m.callers = []
  | 1, m => m.callers = [] ∧ m.get Reg.sp = 256
  | 2, m => ∃ a, m.callers = [a] ∧ a.sp = 256 ∧ m.get Reg.fp = 256 ∧ m.get Reg.sp = 192
  | 3, m => ∃ b a, m.callers = [b, a] ∧ (b.sp = 192 ∧ a.sp = 256) ∧ b.kept Reg.fp = 256 ∧
      m.get Reg.fp = 192
  | 4, m => ∃ a, m.callers = [a] ∧ a.sp = 256 ∧ m.get Reg.fp = 256
  | _, _ => True

theorem twoCallsAt_perform {k : Nat} {word : Word} {m m' : Frames} {fresh : Reg → Word}
    (hword : twoCalls[k]? = some word) (h : TwoCallsAt k m)
    (hperform : m.perform fresh (Instr.ofWord word) = some m') : TwoCallsAt (k + 1) m' := by
  match k, h with
  | 0, h =>
    cases hword
    cases hperform
    refine ⟨h, ?_⟩
    rfl
  | 1, ⟨hcallers, hsp⟩ =>
    cases hword
    cases hperform
    refine ⟨_, congrArg _ hcallers, hsp, hsp, ?_⟩
    show m.get Reg.sp + (-64) = 192
    rw [hsp]
    rfl
  | 2, ⟨a, hcallers, ha, hfp, hsp⟩ =>
    cases hword
    cases hperform
    exact ⟨_, a, congrArg _ hcallers, ⟨hsp, ha⟩, hfp, hsp⟩
  | 3, ⟨b, a, hcallers, ⟨hb, ha⟩, hkept, hfp⟩ =>
    cases hword
    have hrestore : m.perform fresh (Instr.ofWord 0x81e80000)
        = some ((m.leave b [a]).set 0 (m.sum 0 (.reg 0))) := by
      rw [show Instr.ofWord 0x81e80000 = .restore 0 (.reg 0) 0 from rfl, Frames.perform, hcallers]
    cases hrestore.symm.trans hperform
    exact ⟨a, rfl, ha, hkept⟩
  | 4, ⟨a, hcallers, ha, hfp⟩ => trivial
  | k + 5, h => trivial

theorem twoCallsAt_follows {c₀ : Cpu} {words : List Word} {n : Nat} {c : Cpu} {s : Ram} {m : Frames}
    (h : Follows Ram.bus c₀ twoCallsRam words n c s m) (rest : List Word)
    (hwords : twoCalls = words ++ rest) : TwoCallsAt words.length m := by
  induction h generalizing rest with
  | start => rfl
  | @next words _ _ _ _ word _ _ _ _ _ _ _ hperform _ ih =>
    have hword : twoCalls[words.length]? = some word := by
      rw [hwords, List.append_assoc, List.getElem?_append_right (Nat.le_refl _), Nat.sub_self]
      rfl
    rw [List.length_append]
    exact twoCallsAt_perform hword (ih (word :: rest) (by rw [hwords, List.append_assoc]; rfl)) hperform

theorem twoCallsAt_disciplined {k : Nat} {word : Word} {m : Frames} (hword : twoCalls[k]? = some word)
    (h : TwoCallsAt k m) :
    Disciplined Ram.workingMemory twoCallsRam 0 twoCalls.length m (Instr.ofWord word) := by
  match k, h with
  | 0, h =>
    cases hword
    exact ⟨linked_nil h, nofun, nofun⟩
  | 1, ⟨hcallers, hsp⟩ =>
    cases hword
    refine ⟨linked_nil hcallers, fun _ _ _ _ => ?_, nofun⟩
    rw [hsp, hcallers]
    exact ⟨twoCallsRam_fits (.inl rfl), nofun⟩
  | 2, ⟨a, hcallers, ha, hfp, hsp⟩ =>
    cases hword
    refine ⟨linked_cons hcallers (hfp.trans ha.symm), fun _ _ _ _ => ?_, nofun⟩
    have hapart : ∀ j < 16, ∀ k < 16, slot 192 j ≠ slot 256 k := by decide
    rw [hsp, hcallers]
    refine ⟨twoCallsRam_fits (.inr rfl), fun b hb => ?_⟩
    obtain rfl := List.mem_singleton.mp hb
    rw [ha]
    exact hapart
  | 3, ⟨b, a, hcallers, ⟨hb, ha⟩, hkept, hfp⟩ =>
    cases hword
    refine ⟨linked_cons hcallers (hfp.trans hb.symm), nofun, fun _ _ _ _ => ?_⟩
    rw [hcallers]
    exact List.cons_ne_nil b [a]
  | 4, ⟨a, hcallers, ha, hfp⟩ =>
    cases hword
    refine ⟨linked_cons hcallers (hfp.trans ha.symm), nofun, fun _ _ _ _ => ?_⟩
    rw [hcallers]
    exact List.cons_ne_nil a []
  | k + 5, h => cases hword

/-- Three windows: the second save overflows, and the second restore underflows. -/
theorem window_transparency_two_calls : ∃ c,
    Cpu.ofConfiguration { windows := 3, trapMode := .internal } = .ok c ∧
    ∃ n c' s' m, Follows Ram.bus (c.reset 0) twoCallsRam twoCalls n c' s' m ∧
      Cpu.run Ram.bus (fun _ _ => false) n (c.reset 0) twoCallsRam = ⟨.budgetSpent, n, n + 1, c', s'⟩ := by
  have hc : Cpu.ofConfiguration { windows := 3, trapMode := .internal } = .ok _ := rfl
  refine ⟨_, hc, window_transparency Ram.workingMemory hc (by decide) rfl (by decide) twoCallsRam_code ?_⟩
  intro words word rest n c' s' m hwords hfollows
  have hword : twoCalls[words.length]? = some word := by
    rw [hwords, List.getElem?_append_right (Nat.le_refl _), Nat.sub_self]
    rfl
  exact twoCallsAt_disciplined hword (twoCallsAt_follows hfollows _ hwords)

end SparcIU
