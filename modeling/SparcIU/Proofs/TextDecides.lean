/-
# What the text of a word decides

The text of a word decides what the word does. Two words with one text stand for
instructions of one plain form (`Instr.ofText?_text`), and an instruction and its
plain form have one dialogue (`Cpu.execute_plain`): the short forms say the same as
what they abbreviate, and the parts of a word that are not written do not count. Only
the address space of a load is not written and counts; so the two words must not be
alternate loads.

At an address, the text of a branch or a call ends in its target, the one that is
queued if control is transferred. All the bits of such a word are in its text.

Key definitions: `Bus.HearsTexts`, `Word.Transfers`, `Word.targetAt`.
Key theorems: `Cpu.execute_plain`, `Instr.dispatch_eq`, `Instr.eq_of_textAt`,
`text_decides`.
-/
import SparcIU.Proofs.Assembler
import SparcIU.Proofs.AbortSet
import SparcIU.Remarks

namespace SparcIU

/-! ### Instructions and their plain forms -/

namespace Cpu

variable {c : Cpu}

theorem operand_plain (c : Cpu) (src : Operand) : c.operand src.plain = c.operand src := by
  cases src with
  | reg r =>
    simp only [Operand.plain]
    split
    · rename_i hr
      rw [hr]
      rfl
    · rfl
  | imm v => rfl

theorem sum_plain (c : Cpu) (rs1 : Reg) (src : Operand) : c.sum rs1 src.plain = c.sum rs1 src := by
  unfold sum
  rw [operand_plain]

/-- **An instruction does what its plain form does.** -/
theorem execute_plain (c : Cpu) (i : Instr) : c.execute i.plain = c.execute i := by
  cases i with
  | sethi v rd =>
    simp only [Instr.plain]
    split
    · rename_i h
      rw [h.1]
      rfl
    · rfl
  | jmpl | rett | load | store =>
    simp only [Instr.plain, execute, operate, returnFromTrap, sum_plain]
  | _ => rfl

end Cpu

/-! ### Words with one text -/

namespace Instr

variable {w w₁ w₂ : Word}

theorem plain_eq_unknown {i : Instr} {v : Word} : i.plain = unknown v ↔ i = unknown v := by
  cases i with
  | sethi v rd =>
    simp only [plain]
    split <;> simp
  | _ => simp [plain]

/-- What is listed as data is listed as itself. -/
theorem eq_of_unknown {v : Word} (h : ofWord w = unknown v) : v = w := by
  unfold ofWord ofFormat2 ofFormat3 ofMemory at h
  split at h
  · split at h <;> cases h
    rfl
  · cases h
  · split at h <;> try split at h
    all_goals cases h
    all_goals rfl
  · split at h <;> cases h
    rfl

/-- Two lines with one text have one plain form, if `target` reads what `write` writes. -/
theorem plain_eq_of_text {write : Word → String} (target : List Char → Option Word)
    (htarget : ∀ w, target (write w).toList = some w) (hwrite : ∀ w, ',' ∉ (write w).toList)
    {i j : Instr} (h : (i.assembly write).text = (j.assembly write).text) : i.plain = j.plain := by
  have hi := ofText?_text htarget hwrite i
  rw [h, ofText?_text htarget hwrite j] at hi
  exact (Option.some.inj hi).symm

theorem plain_eq_of_relativeText {i j : Instr} (h : i.relativeText = j.relativeText) :
    i.plain = j.plain := by
  refine plain_eq_of_text Word.ofDistance? Word.ofDistance?_distance (fun w => ?_) h
  unfold distance
  split <;> simp [foreign_comma.notMem_hex]

theorem plain_eq_of_textAt {i j : Instr} {pc : Word} (h : i.textAt pc = j.textAt pc) :
    i.plain = j.plain :=
  plain_eq_of_text (Word.ofTarget? pc) (Word.ofTarget?_hex pc)
    (fun _ => foreign_comma.notMem_hex _) h

/-- A word that is no alternate load is implemented or listed as data. -/
theorem implemented_or_unknown (h : ¬ w.LoadsAlternate) :
    (ofWord w).implemented = true ∨ ofWord w = unknown w := by
  cases hi : (ofWord w).implemented with
  | true => exact .inl rfl
  | false =>
    rcases (implemented_ofWord w).mp hi with ⟨v, hv⟩ | halternate
    · exact .inr (eq_of_unknown hv ▸ hv)
    · exact absurd halternate h

/-- **Words with one plain form have one dialogue.** -/
theorem dispatch_eq (hplain : (ofWord w₁).plain = (ofWord w₂).plain) (h₁ : ¬ w₁.LoadsAlternate)
    (h₂ : ¬ w₂.LoadsAlternate) (c : Cpu) :
    c.dispatch w₁ (ofWord w₁) = c.dispatch w₂ (ofWord w₂) := by
  rcases implemented_or_unknown h₁ with himpl₁ | hdata₁
  · rcases implemented_or_unknown h₂ with himpl₂ | hdata₂
    · unfold Cpu.dispatch
      rw [if_pos himpl₁, if_pos himpl₂, ← c.execute_plain (ofWord w₁), hplain, c.execute_plain]
    · rw [hdata₂] at hplain
      rw [eq_of_unknown (plain_eq_unknown.mp hplain)]
  · rw [hdata₁] at hplain
    rw [eq_of_unknown (plain_eq_unknown.mp hplain.symm)]

end Instr

/-- A bus that takes remarks for the lines they are. -/
def Bus.HearsTexts {σ : Type} (bus : Bus σ) : Prop :=
  ∀ r r' s, r.text = r'.text → bus.hear r s = bus.hear r' s

theorem Remark.text_congr {r r' : Remark} (hlevel : r.level = r'.level)
    (hmessage : r.message = r'.message) (hvalues : r.values = r'.values) : r.text = r'.text := by
  unfold text
  rw [hlevel, hmessage, hvalues]

/-- What is done with a fetched word depends on its text only. -/
theorem Cpu.hold_take_eq {w₁ w₂ : Word}
    (htext : (Instr.ofWord w₁).relativeText = (Instr.ofWord w₂).relativeText)
    (h₁ : ¬ w₁.LoadsAlternate) (h₂ : ¬ w₂.LoadsAlternate) (c : Cpu) {σ : Type} {bus : Bus σ}
    (hbus : bus.HearsTexts) (s : σ) : (c.take w₁).hold bus s = (c.take w₂).hold bus s ∧
      (c.take w₁).transcript bus s = (c.take w₂).transcript bus s := by
  have hdispatch := Instr.dispatch_eq (Instr.plain_eq_of_relativeText htext) h₁ h₂ c.clearZero
  have hannuls : bus.hear (.annuls c.clearZero.pc (Instr.ofWord w₁)) s =
      bus.hear (.annuls c.clearZero.pc (Instr.ofWord w₂)) s :=
    hbus _ _ s (Remark.text_congr rfl (congrArg ("annulled: " ++ ·) htext) rfl)
  have hexecutes : bus.hear (.executes c.clearZero.pc (Instr.ofWord w₁)) s =
      bus.hear (.executes c.clearZero.pc (Instr.ofWord w₂)) s :=
    hbus _ _ s (Remark.text_congr rfl htext rfl)
  unfold take
  simp only
  split
  · simp only [Dialogue.hold, Dialogue.transcript, hannuls, and_self]
  · simp only [Dialogue.hold, Dialogue.transcript, hexecutes, hdispatch, and_self]

/-! ### Targets -/

/-- Branches and calls. -/
def Word.Transfers (w : Word) : Prop := w.op = 0 ∧ w.op2 = 2 ∨ w.op = 1

/-- Where a branch or a call at `pc` leads. -/
def Word.targetAt (w pc : Word) : Word :=
  if w.op = 1 then pc + w.callOffset else pc + w.branchOffset

namespace Instr

variable {w w₁ w₂ : Word}

theorem ofWord_branch (hop : w.op = 0) (hop2 : w.op2 = 2) :
    ofWord w = branch (Cond.ofField w.cond) w.annul w.branchOffset := by
  unfold ofWord ofFormat2
  simp only [hop, hop2]

theorem ofWord_call (hop : w.op = 1) : ofWord w = call w.callOffset := by
  unfold ofWord
  simp only [hop]

/-- The fields of a branch are all of it. -/
theorem eq_of_branch (h₁ : w₁.op = 0 ∧ w₁.op2 = 2) (h₂ : w₂.op = 0 ∧ w₂.op2 = 2)
    (h : ofWord w₁ = ofWord w₂) : w₁ = w₂ := by
  rw [ofWord_branch h₁.1 h₁.2, ofWord_branch h₂.1 h₂.2] at h
  injection h with hcond hannul hoffset
  -- the signed numbers are so small that times four they do not wrap
  have hdisp : w₁.toNat % 0x400000 = w₂.toNat % 0x400000 := by
    have hbits := congrArg UInt32.toNat hoffset
    rw [Word.branchOffset_eq, Word.branchOffset_eq] at hbits
    unfold UInt32.ofInt at hbits
    rw [UInt32.toNat_ofNat', UInt32.toNat_ofNat', Int.bmod_def, Int.bmod_def] at hbits
    split at hbits <;> split at hbits <;> omega
  have hfield : w₁.cond = w₂.cond := by
    have hcode : ∀ n < 16, (Cond.ofField n).code = n := by decide
    have hlt : ∀ w : Word, w.cond < 16 := fun w => Nat.mod_lt _ (by decide)
    rw [← hcode _ (hlt w₁), hcond, hcode _ (hlt w₂)]
  obtain ⟨hop₁, hop2₁⟩ := h₁
  obtain ⟨hop₂, hop2₂⟩ := h₂
  unfold Word.op at hop₁ hop₂
  unfold Word.op2 at hop2₁ hop2₂
  unfold Word.cond at hfield
  unfold Word.annul at hannul
  rw [← UInt32.toNat_inj]
  rw [Bool.eq_iff_iff, beq_iff_eq, beq_iff_eq] at hannul
  omega

/-- The fields of a call are all of it. -/
theorem eq_of_call (h₁ : w₁.op = 1) (h₂ : w₂.op = 1) (h : ofWord w₁ = ofWord w₂) : w₁ = w₂ := by
  rw [ofWord_call h₁, ofWord_call h₂] at h
  injection h with hoffset
  have hbits := congrArg UInt32.toNat hoffset
  rw [Word.toNat_callOffset, Word.toNat_callOffset] at hbits
  unfold Word.op at h₁ h₂
  rw [← UInt32.toNat_inj]
  omega

/-- **At an address the text of a branch or a call is all of it.** -/
theorem eq_of_textAt (h₁ : w₁.Transfers) (h₂ : w₂.Transfers) {pc : Word}
    (h : (ofWord w₁).textAt pc = (ofWord w₂).textAt pc) : w₁ = w₂ := by
  have hplain := plain_eq_of_textAt h
  rcases h₁ with hbranch₁ | hcall₁
  · rcases h₂ with hbranch₂ | hcall₂
    · refine eq_of_branch hbranch₁ hbranch₂ ?_
      rw [ofWord_branch hbranch₁.1 hbranch₁.2, ofWord_branch hbranch₂.1 hbranch₂.2] at hplain ⊢
      exact hplain
    · rw [ofWord_branch hbranch₁.1 hbranch₁.2, ofWord_call hcall₂] at hplain
      cases hplain
  · rcases h₂ with hbranch₂ | hcall₂
    · rw [ofWord_call hcall₁, ofWord_branch hbranch₂.1 hbranch₂.2] at hplain
      cases hplain
    · refine eq_of_call hcall₁ hcall₂ ?_
      rw [ofWord_call hcall₁, ofWord_call hcall₂] at hplain ⊢
      exact hplain

/-- The text of a branch or a call ends in its target. -/
theorem textAt_target (h : w.Transfers) (pc : Word) : ∃ head, ' ' ∉ head.toList ∧
    (ofWord w).textAt pc = head ++ " " ++ Numeral.hex (w.targetAt pc).toNat := by
  refine ⟨_, blank_notMem_mnemonic Word.ofDistance?_distance (ofWord w), ?_⟩
  have hline : ∀ mnemonic target : String,
      Assembly.text ⟨mnemonic, [target]⟩ = mnemonic ++ " " ++ target := fun _ _ => by
    simp only [Assembly.text, String.intercalate_singleton]
  unfold Word.targetAt
  rcases h with ⟨hop, hop2⟩ | hop
  · rw [ofWord_branch hop hop2, if_neg (by omega)]
    exact hline _ _
  · rw [ofWord_call hop, if_pos hop]
    exact hline _ _

/-- A call, and a branch that is taken, queues its target. -/
theorem execute_target (h : w.Transfers) (c : Cpu) :
    ∃ c', c.execute (ofWord w) = .done c' ∧ c'.branchTarget =
      if w.op = 1 ∨ c.takes w then some (w.targetAt c.pc) else c.branchTarget := by
  unfold Word.targetAt
  rcases h with ⟨hop, hop2⟩ | hop
  · rw [ofWord_branch hop hop2]
    refine ⟨_, rfl, ?_⟩
    have hnot : ¬ w.op = 1 := by omega
    have htaken : c.takes w = (Cond.ofField w.cond).holds c.psr.icc := rfl
    simp only [Cpu.operate, Cpu.branch, hnot, false_or, if_false, htaken]
    by_cases hholds : (Cond.ofField w.cond).holds c.psr.icc
    · rw [if_pos hholds, if_pos hholds]
      split <;> rfl
    · rw [if_neg hholds, if_neg hholds]
      split <;> rfl
  · rw [ofWord_call hop, if_pos (.inl hop), if_pos hop]
    exact ⟨_, rfl, rfl⟩

end Instr

/-- **The text of a word decides what it does.** Two words with one text that are not
alternate loads have one dialogue, in every state: with every bus they make the same
accesses, come to the same end and leave the same processor and the same device. The
same holds with what is remarked of the fetched word, for a bus that takes remarks for
their texts. At every address the text of a branch or a call ends in the target that is
queued if it is taken, in hexadecimal; and no two branches or calls have one text
there. -/
theorem text_decides :
    (∀ w₁ w₂ : Word, (Instr.ofWord w₁).relativeText = (Instr.ofWord w₂).relativeText →
      ¬ w₁.LoadsAlternate → ¬ w₂.LoadsAlternate → ∀ c : Cpu,
        c.dispatch w₁ (.ofWord w₁) = c.dispatch w₂ (.ofWord w₂) ∧
        ∀ {σ : Type} (bus : Bus σ), bus.HearsTexts → ∀ s,
          (c.take w₁).hold bus s = (c.take w₂).hold bus s ∧
          (c.take w₁).transcript bus s = (c.take w₂).transcript bus s) ∧
    (∀ w pc : Word, w.Transfers →
      (∃ head, ' ' ∉ head.toList ∧
        (Instr.ofWord w).textAt pc = head ++ " " ++ Numeral.hex (w.targetAt pc).toNat) ∧
      ∀ c : Cpu, c.pc = pc → ∃ c', c.execute (.ofWord w) = .done c' ∧ c'.branchTarget =
        if w.op = 1 ∨ c.takes w then some (w.targetAt pc) else c.branchTarget) ∧
    (∀ w₁ w₂ pc : Word, w₁.Transfers → w₂.Transfers →
      (Instr.ofWord w₁).textAt pc = (Instr.ofWord w₂).textAt pc → w₁ = w₂) := by
  refine ⟨fun w₁ w₂ htext h₁ h₂ c => ⟨?_, fun bus hbus s => ?_⟩,
    fun w pc h => ⟨?_, fun c hpc => ?_⟩, fun w₁ w₂ pc h₁ h₂ h => ?_⟩
  · exact Instr.dispatch_eq (Instr.plain_eq_of_relativeText htext) h₁ h₂ c
  · exact Cpu.hold_take_eq htext h₁ h₂ c hbus s
  · exact Instr.textAt_target h pc
  · exact hpc ▸ Instr.execute_target h c
  · exact Instr.eq_of_textAt h₁ h₂ h

/-- The two forms of `ld [%o0], %o1` do the same, and `call` at 0x100 is listed with
the target it queues. -/
theorem text_decides_two_forms :
    ((Instr.ofWord 0xd2020000).relativeText = "ld [%o0], %o1" ∧
      (Instr.ofWord 0xd2022000).relativeText = "ld [%o0], %o1" ∧
      ¬ Word.LoadsAlternate 0xd2020000 ∧ ¬ Word.LoadsAlternate 0xd2022000 ∧
      ∀ c : Cpu, c.dispatch 0xd2020000 (.ofWord 0xd2020000) =
        c.dispatch 0xd2022000 (.ofWord 0xd2022000)) ∧
    (Word.Transfers 0x7ffffffc ∧ (Instr.ofWord 0x7ffffffc).textAt 0x100 = "call 0xf0" ∧
      ∃ c', ({ resetTwo with pc := 0x100 } : Cpu).execute (.ofWord 0x7ffffffc) = .done c' ∧
        c'.branchTarget = some 0xf0) := by
  have hreg : (Instr.ofWord 0xd2020000).relativeText = "ld [%o0], %o1" := by decide
  have himm : (Instr.ofWord 0xd2022000).relativeText = "ld [%o0], %o1" := by decide
  have hnreg : ¬ Word.LoadsAlternate 0xd2020000 := by decide
  have hnimm : ¬ Word.LoadsAlternate 0xd2022000 := by decide
  have hcall : Word.Transfers 0x7ffffffc := .inr (by decide)
  obtain ⟨hsame, htarget, -⟩ := text_decides
  have hline : (Instr.ofWord 0x7ffffffc).textAt 0x100 = "call 0xf0" := by decide
  obtain ⟨c', hc', hbranch⟩ := (htarget 0x7ffffffc 0x100 hcall).2 { resetTwo with pc := 0x100 } rfl
  refine ⟨⟨hreg, himm, hnreg, hnimm, fun c => ?_⟩, hcall, hline, c', hc', hbranch.trans (by decide)⟩
  exact (hsame _ _ (hreg.trans himm.symm) hnreg hnimm c).1

end SparcIU
