/-
# The report of a run

The mailbox keeps book of the words stored at its two addresses, and of nothing else
(`Mailbox.Records`): its output values are the words stored at the last address, in order,
and its status is the last word stored below it. A run is asked whether to stop in front of
every round, and no round stores two words there, so the status is stored once at most
(`Mailbox.records_run`). Nor is it stored in a round that ends the run in a trap, for the
word behind it is the last one, which is never refused. So what the run command says of a
run follows from the words stored at the two addresses and from how the run ended, and so
does its exit code, but for the writing of the final state. What the mailbox itself says
while it runs is what it holds in the end (`Mailbox.told_run`).

Key definitions: `Mailbox.Records`, `Cpu.journal`, `Mailbox.Told`, `RunOptions.Accepted`.
Key theorems: `Mailbox.records_logged`, `Mailbox.records_run`, `Mailbox.told_run`,
`Command.code_runImage_eq_zero_iff`, `run_reported`.
-/
import SparcIU.Command.RunImage
import SparcIU.Proofs.DelayedTransfer
import SparcIU.Proofs.RoundStores
import SparcIU.Proofs.SwappedFiles

namespace SparcIU

/-! ### What a mailbox keeps book of -/

namespace Mailbox

variable {m₀ m : Mailbox} {l : List Access} {addr v : Word}

theorem outputAddr_congr (hbase : m.ram.base = m₀.ram.base)
    (hsize : m.ram.bytes.size = m₀.ram.bytes.size) : m.outputAddr = m₀.outputAddr := by
  unfold outputAddr
  rw [hbase, hsize]

/-- The mailbox and the accesses it has answered: the memory is in its place, the two books
are right, and no word was refused at the last address. -/
structure Records (m₀ : Mailbox) (x : Mailbox × List Access) : Prop where
  base : x.1.ram.base = m₀.ram.base
  size : x.1.ram.bytes.size = m₀.ram.bytes.size
  outputs : x.1.outputs = storedAt m₀.outputAddr x.2
  status : x.1.status = (storedAt m₀.statusAddr x.2).getLast?
  granted : ∀ v e, Access.write m₀.outputAddr v (.error e) ∉ x.2

theorem statusAddr_add_four (m : Mailbox) : m.statusAddr + 4 = m.outputAddr :=
  UInt32.sub_add_cancel ..

theorem outputAddr_ne_statusAddr (m : Mailbox) : m.outputAddr ≠ m.statusAddr := by
  intro h
  have hself : m.statusAddr = m.statusAddr + 4 := h.symm.trans m.statusAddr_add_four.symm
  exact absurd (UInt32.left_eq_add.mp hself) (by decide)

/-- What a word that was written changes: one of the two books, if it went to its address. -/
theorem ram_receive (m : Mailbox) (addr v : Word) : (m.receive addr v).ram = m.ram := by
  unfold Mailbox.receive
  split_ifs <;> rfl

theorem outputs_receive (m : Mailbox) (addr v : Word) :
    (m.receive addr v).outputs = m.outputs ++ if addr = m.outputAddr then [v] else [] := by
  unfold Mailbox.receive
  split_ifs
  · exact List.reverse_cons
  · exact (List.append_nil _).symm
  · exact (List.append_nil _).symm

theorem status_receive (m : Mailbox) (addr v : Word) :
    (m.receive addr v).status = if addr = m.statusAddr then some v else m.status := by
  unfold Mailbox.receive
  by_cases h : addr = m.outputAddr
  · rw [if_pos h, if_neg (h ▸ m.outputAddr_ne_statusAddr)]
  · rw [if_neg h]
    split_ifs <;> rfl

theorem storedAt_write (a addr v : Word) :
    storedAt a [.write addr v (.ok ())] = if addr = a then [v] else [] := by
  by_cases h : addr = a
  · simp [storedAt, stores, Access.stored, h]
  · simp [storedAt, stores, Access.stored, h]

/-- An access that stores nothing and is granted at the last address leaves the books. -/
theorem Records.idle (h : Records m₀ (m, l)) {x : Access} (hx : x.stored = none)
    (hgranted : ∀ v e, x ≠ .write m₀.outputAddr v (.error e)) : Records m₀ (m, l ++ [x]) := by
  have hstored : ∀ a, storedAt a (l ++ [x]) = storedAt a l := by
    intro a
    have hnone : storedAt a [x] = [] := by simp [storedAt, stores, hx]
    rw [storedAt_append, hnone, List.append_nil]
  refine ⟨h.base, h.size, ?_, ?_, fun v e hmem => ?_⟩
  · rw [hstored]
    exact h.outputs
  · rw [hstored]
    exact h.status
  · rcases List.mem_append.mp hmem with hmem | hmem
    · exact h.granted v e hmem
    · exact hgranted v e (List.mem_singleton.mp hmem).symm

/-- A word that is stored is entered in its book. -/
theorem Records.receive (h : Records m₀ (m, l)) {bytes : ByteStore}
    (hbytes : bytes.size = m.ram.bytes.size) (addr v : Word) :
    Records m₀ (Mailbox.receive { m with ram := { m.ram with bytes } } addr v,
      l ++ [.write addr v (.ok ())]) := by
  let m₁ : Mailbox := { m with ram := { m.ram with bytes } }
  have hout : m₁.outputAddr = m₀.outputAddr := outputAddr_congr h.base (hbytes.trans h.size)
  have hst : m₁.statusAddr = m₀.statusAddr := congrArg (· - 4) hout
  have hgranted : ∀ v' e, Access.write m₀.outputAddr v' (.error e) ∉ l ++ [.write addr v (.ok ())] := by
    intro v' e hmem
    rcases List.mem_append.mp hmem with hmem | hmem
    · exact h.granted v' e hmem
    · cases List.mem_singleton.mp hmem
  have hram : (m₁.receive addr v).ram = m₁.ram := m₁.ram_receive addr v
  show Records m₀ (m₁.receive addr v, _)
  refine ⟨?_, ?_, ?_, ?_, hgranted⟩
  · rw [hram]
    exact h.base
  · rw [hram]
    exact hbytes.trans h.size
  · show (m₁.receive addr v).outputs = _
    rw [outputs_receive, hout, storedAt_append, storedAt_write, ← h.outputs]
    rfl
  · show (m₁.receive addr v).status = _
    rw [status_receive, hst, storedAt_append, storedAt_write, List.getLast?_append, ← h.status]
    split_ifs <;> rfl

theorem write_refused {e : Fault} (h : m.ram.offset addr = .error e) :
    m.write addr v = (.error e, m) := by
  unfold Mailbox.write Ram.write
  simp only [h]

theorem write_granted {o : Nat} (h : m.ram.offset addr = .ok o) : m.write addr v = (.ok (),
    Mailbox.receive { m with ram := { m.ram with
      bytes := m.ram.bytes.setAll o (m.ram.order.bytes v) } } addr v) := by
  unfold Mailbox.write Ram.write
  simp only [h]

/-- **The books are kept right.** A mailbox that answers is one that answers and logs, as long
as the log and the books agree, and they go on agreeing. -/
theorem records_logged {o : Nat} (hout : m₀.ram.offset m₀.outputAddr = .ok o) :
    SameAnswers bus bus.logged fun m x => x.1 = m ∧ Records m₀ x := by
  refine ⟨?_, ?_, ?_⟩
  · rintro _ ⟨m, l⟩ addr ⟨rfl, h⟩
    exact ⟨rfl, rfl, h.idle rfl nofun⟩
  · rintro _ ⟨m, l⟩ addr v ⟨rfl, h⟩
    refine ⟨rfl, rfl, ?_⟩
    show Records m₀ ((m.write addr v).2, l ++ [.write addr v (m.write addr v).1])
    cases hoffset : m.ram.offset addr with
    | error e =>
      rw [write_refused hoffset]
      refine h.idle rfl fun v' e' he => ?_
      have haddr : addr = m₀.outputAddr := (Access.write.inj he).1
      rw [haddr, Ram.offset_congr h.base h.size, hout] at hoffset
      cases hoffset
    | ok o' =>
      rw [write_granted hoffset]
      exact h.receive (Ram.size_setAll ..) addr v
  · rintro _ ⟨m, l⟩ r ⟨rfl, h⟩
    exact ⟨rfl, h⟩

end Mailbox

/-! ### The log of a run -/

/-- The accesses of a run that stops as soon as there is a status. -/
def Cpu.journal (c : Cpu) (m : Mailbox) (budget : Nat) : List Access :=
  (c.run Mailbox.bus.logged (fun _ x => x.1.finished) budget (m, [])).device.2

namespace Mailbox

variable {m₀ m : Mailbox} {l : List Access}

/-- While a run goes on no status has been stored. -/
theorem Records.unfinished (h : Records m₀ (m, l)) (hgo : m.finished = false) :
    storedAt m₀.statusAddr l = [] := by
  have hnone : m.status = none := Option.not_isSome_iff_eq_none.mp (Bool.eq_false_iff.mp hgo)
  have hstatus := h.status
  rw [hnone] at hstatus
  exact List.getLast?_eq_none_iff.mp hstatus.symm

/-- One round more leaves the books right. It stores one status at most, and none if it ends
the run in a trap. -/
theorem Records.round {o : Nat} (hout : m₀.ram.offset m₀.outputAddr = .ok o) (h : Records m₀ (m, l))
    (hgo : m.finished = false) {steps : Nat} {c c' : Cpu} {e : Option Exit}
    {x : Mailbox × List Access} (hround : c.round bus.logged steps (m, l) = (e, c', x)) :
    Records m₀ x ∧ (storedAt m₀.statusAddr x.2).length ≤ 1 ∧
      ∀ t, e = some (.trapped t) → storedAt m₀.statusAddr x.2 = [] := by
  obtain ⟨-, -, -, hx⟩ := (records_logged hout).round ⟨rfl, h⟩ steps c
  rw [hround] at hx
  obtain ⟨l', hl', hapart, hcut⟩ := Cpu.round_stores hround
  have hstored : storedAt m₀.statusAddr x.2 = storedAt m₀.statusAddr l' := by
    rw [hl', storedAt_append, h.unfinished hgo, List.nil_append]
  rw [hstored]
  refine ⟨hx, length_storedAt_le_one hapart _, fun t ht => List.eq_nil_iff_forall_not_mem.mpr fun v hv => ?_⟩
  -- the word behind the status is the last one, and that is never refused
  obtain ⟨w, e', hmem⟩ := hcut t ht _ (mem_storedAt.mp hv)
  refine hx.granted w e' ?_
  rw [hl', ← m₀.statusAddr_add_four]
  exact List.mem_append_right l hmem

/-- From its start on, a run stores one status at most, and none if it ends in a trap. -/
theorem Records.runFrom {o : Nat} (hout : m₀.ram.offset m₀.outputAddr = .ok o)
    (budget steps asked : Nat) (c : Cpu) {x : Mailbox × List Access} (h : Records m₀ x)
    (hone : (storedAt m₀.statusAddr x.2).length ≤ 1) :
    let r := c.runFrom bus.logged (fun _ x => x.1.finished) budget steps asked x
    (storedAt m₀.statusAddr r.device.2).length ≤ 1 ∧
      ∀ t, r.exit = .trapped t → storedAt m₀.statusAddr r.device.2 = [] := by
  refine Cpu.runFrom_rounds (P := fun _ _ _ _ x r => Records m₀ x →
    (storedAt m₀.statusAddr x.2).length ≤ 1 → (storedAt m₀.statusAddr r.device.2).length ≤ 1 ∧
      ∀ t, r.exit = .trapped t → storedAt m₀.statusAddr r.device.2 = [])
    ?_ ?_ ?_ ?_ budget steps asked c x h hone
  · exact fun _ _ _ _ _ _ _ hone => ⟨hone, nofun⟩
  · exact fun _ _ _ _ _ _ hone => ⟨hone, nofun⟩
  · intro _ steps _ c x e c' x' hgo hround h _
    obtain ⟨-, hone, htrapped⟩ := h.round hout hgo hround
    exact ⟨hone, fun t ht => htrapped t (congrArg some ht)⟩
  · intro _ steps _ c x c' x' r hgo hround ih h _
    obtain ⟨h', hone, -⟩ := h.round hout hgo hround
    exact ih h' hone

/-- **The log of a whole run.** The books are right. The run was stopped if a status was
stored, and that once; if the budget was spent, or a trap was left, none was. -/
theorem records_run {o : Nat} (hout : m₀.ram.offset m₀.outputAddr = .ok o) (budget : Nat) (c : Cpu)
    (hsent : m₀.sent = []) (hstatus : m₀.status = none) :
    let r := c.run bus (fun _ m => m.finished) budget m₀
    let l := c.journal m₀ budget
    Records m₀ (r.device, l) ∧ (storedAt m₀.statusAddr l).length ≤ 1 ∧
      (r.exit = .stopped → ∃ w, storedAt m₀.statusAddr l = [w]) ∧
      (r.exit = .budgetSpent → storedAt m₀.statusAddr l = [] ∧ r.steps = budget) ∧
      ∀ t, r.exit = .trapped t → storedAt m₀.statusAddr l = [] := by
  intro r l
  have hstart : Records m₀ (m₀, []) := by
    refine ⟨rfl, rfl, ?_, hstatus, fun _ _ => List.not_mem_nil⟩
    unfold outputs
    rw [hsent]
    rfl
  have hsame : SameRun _ r (c.run bus.logged (fun _ x => x.1.finished) budget (m₀, [])) :=
    (records_logged hout).runFrom (fun _ _ _ h => congrArg finished h.1) budget 0 0 c ⟨rfl, hstart⟩
  obtain ⟨hdevice, hlogged⟩ := hsame.device
  have hrecords : Records m₀ (r.device, l) := by
    rw [← hdevice]
    exact hlogged
  obtain ⟨hone, htrapped⟩ := hstart.runFrom hout budget 0 0 c (Nat.zero_le 1)
  replace hone : (storedAt m₀.statusAddr l).length ≤ 1 := hone
  have hcounts : (r.exit = .budgetSpent → r.steps = 0 + budget ∧ r.device.finished = false) ∧
      (r.exit = .stopped → r.device.finished = true) ∧ r.asked + 0 = 0 + r.steps + 1 :=
    Cpu.runFrom_counts budget 0 0 c m₀
  refine ⟨hrecords, hone, fun he => ?_, fun he => ?_, fun t ht => htrapped t (hsame.exit.trans ht)⟩
  · obtain ⟨w, hw⟩ := Option.isSome_iff_exists.mp (hcounts.2.1 he)
    have hmem : w ∈ storedAt m₀.statusAddr l :=
      List.mem_of_getLast? (hrecords.status.symm.trans hw)
    exact List.length_eq_one_iff.mp (Nat.le_antisymm hone (List.length_pos_of_mem hmem))
  · obtain ⟨hsteps, hgo⟩ := hcounts.1 he
    exact ⟨hrecords.unfinished hgo, hsteps.trans (Nat.zero_add budget)⟩

end Mailbox

/-! ### What the mailbox says -/

/-- The value that a remark gives out. -/
def Remark.output? : Remark → Option Word
  | .output v => some v
  | _ => none

/-- The status that a remark announces. -/
def Remark.status? : Remark → Option Word
  | .passed => some 0
  | .failed line => some line
  | _ => none

namespace Mailbox

variable {m₀ m : Mailbox} {said : List Remark}

/-- The mailbox holds what it held in the beginning and what it has said since. -/
structure Told (m₀ m : Mailbox) (said : List Remark) : Prop where
  outputs : m.outputs = m₀.outputs ++ said.filterMap Remark.output?
  status : m.status = (said.filterMap Remark.status?).getLast?.or m₀.status

theorem told_nil (m : Mailbox) : Told m m [] := ⟨(List.append_nil _).symm, rfl⟩

/-- What is said of a word is what is entered of it. -/
theorem Told.receive (h : Told m₀ m said) (addr v : Word) :
    Told m₀ (m.receive addr v) (said ++ (m.notice addr v).toList) := by
  constructor
  · rw [outputs_receive, h.outputs, List.filterMap_append, List.append_assoc]
    congr 2
    unfold notice
    split_ifs <;> rfl
  · rw [status_receive, h.status, List.filterMap_append, List.getLast?_append]
    unfold notice
    by_cases hout : addr = m.outputAddr
    · rw [if_pos hout, if_neg (hout ▸ m.outputAddr_ne_statusAddr)]
      rfl
    · rw [if_neg hout]
      split_ifs with hst hv
      · rw [hv]
        rfl
      · rfl
      · rfl

/-- **The mailbox says what it holds**, and the device that says it is no other one. -/
theorem told_noticing (m₀ : Mailbox) :
    SameAnswers bus noticing fun m x => x.1 = m ∧ Told m₀ m x.2 := by
  refine ⟨?_, ?_, ?_⟩
  · rintro _ ⟨m, said⟩ addr ⟨rfl, h⟩
    exact ⟨rfl, rfl, h⟩
  · rintro _ ⟨m, said⟩ addr v ⟨rfl, h⟩
    cases hoffset : m.ram.offset addr with
    | error e =>
      have hwrite : m.write addr v = (.error e, m) := write_refused hoffset
      simp only [noticing, bus, hwrite, true_and]
      exact h
    | ok o =>
      let m₁ : Mailbox := { m with ram := { m.ram with
        bytes := m.ram.bytes.setAll o (m.ram.order.bytes v) } }
      have hwrite : m.write addr v = (.ok (), m₁.receive addr v) := write_granted hoffset
      -- the bytes of a word do not move the two addresses
      have hout : m₁.outputAddr = m.outputAddr := outputAddr_congr rfl (Ram.size_setAll ..)
      have hnotice : m.notice addr v = m₁.notice addr v := by
        unfold notice statusAddr
        rw [hout]
      have h₁ : Told m₀ m₁ said := ⟨h.outputs, h.status⟩
      simp only [noticing, bus, hwrite, true_and]
      rw [hnotice]
      exact h₁.receive addr v
  · rintro _ ⟨m, said⟩ r ⟨rfl, h⟩
    exact ⟨rfl, h⟩

/-- **The remarks of a whole run.** A run with the device that says what it notices is the run
without, and what has been said is what the mailbox holds in the end: the output values in
order, and the last status. -/
theorem told_run (c : Cpu) (budget : Nat) (m : Mailbox) :
    let r := c.run bus (fun _ m => m.finished) budget m
    let r' := c.run noticing (fun _ x => x.1.finished) budget (m, [])
    r'.exit = r.exit ∧ r'.steps = r.steps ∧ r'.cpu = r.cpu ∧ r'.device.1 = r.device ∧
      Told m r.device r'.device.2 := by
  intro r r'
  have hsame : SameRun _ r r' := (told_noticing m).runFrom
    (fun _ _ _ h => congrArg finished h.1) budget 0 0 c ⟨rfl, told_nil m⟩
  exact ⟨hsame.exit, hsame.steps, hsame.cpu, hsame.device.1, hsame.device.2⟩

end Mailbox

/-! ### The run command -/

namespace Command

/-- The command can start: the options are in range, every file it reads is there, and the
configuration, the image and the record are accepted. Its processor is `c`. -/
structure RunOptions.Accepted (o : RunOptions) (files : Files) (config : Configuration)
    (image : ByteArray) (c : Cpu) : Prop where
  configured : o.configuration files = .ok config
  least : 4096 ≤ o.memSize
  aligned : o.memSize % 4 = 0
  space : o.memSize < 2 ^ 32
  found : files o.image = .ok image
  fits : image.size ≤ o.memSize
  processor : o.processor files config (UInt32.ofNat (o.memSize - 4)) = .ok c

variable {o : RunOptions} {files : Files} {config : Configuration} {image : ByteArray} {c : Cpu}

/-- The memory it starts with: zero, but for the image. -/
def RunOptions.loaded (o : RunOptions) (config : Configuration) (image : ByteArray) : Mailbox :=
  { ram := {
      bytes := (ByteStore.zeros o.memSize).setAll 0 image.data.toList
      base := 0
      order := config.order } }

theorem RunOptions.Accepted.memory (h : o.Accepted files config image c) :
    o.memory files config.order = .ok (o.loaded config image) := by
  have hleast := h.least
  have haligned := h.aligned
  have hspace := h.space
  have hfits := h.fits
  have hload : (Ram.zero o.memSize 0 config.order).loadImage 0 image =
      .ok (o.loaded config image).ram := by
    unfold Ram.loadImage
    rw [if_neg (by omega), if_neg]
    · rfl
    · show ¬ o.memSize < 0 + image.size
      omega
  unfold RunOptions.memory
  rw [if_neg (by omega), if_neg (by omega), h.found]
  simp only [hload]
  rfl

/-- The last two words of the memory are those of the mailbox, and the last one can be
written. -/
theorem RunOptions.Accepted.mailbox (h : o.Accepted files config image c) :
    let m := o.loaded config image
    m.outputAddr = UInt32.ofNat (o.memSize - 4) ∧ m.statusAddr = UInt32.ofNat (o.memSize - 8) ∧
      m.ram.offset m.outputAddr = .ok (o.memSize - 4) := by
  intro m
  have hleast := h.least
  have haligned := h.aligned
  have hspace := h.space
  have hsize : m.ram.bytes.size = o.memSize := Ram.size_setAll ..
  have hout : m.outputAddr = UInt32.ofNat (o.memSize - 4) := by
    show 0 + UInt32.ofNat m.ram.bytes.size - 4 = _
    rw [hsize, UInt32.zero_add, UInt32.ofNat_sub (by omega)]
    rfl
  have hst : m.statusAddr = UInt32.ofNat (o.memSize - 8) := by
    have hsub : o.memSize - 8 = o.memSize - 4 - 4 := by omega
    show m.outputAddr - 4 = _
    rw [hout, hsub, UInt32.ofNat_sub (a := o.memSize - 4) (by omega)]
    rfl
  have hlast : (m.outputAddr - 0).toNat = o.memSize - 4 := by
    rw [UInt32.sub_zero, hout, UInt32.toNat_ofNat', Nat.mod_eq_of_lt (by omega)]
  have haligned' : m.outputAddr.isAligned := by
    rw [UInt32.sub_zero] at hlast
    rw [Word.isAligned_iff]
    omega
  have hfits : (m.outputAddr - m.ram.base).toNat + 4 ≤ m.ram.bytes.size := by
    show (m.outputAddr - 0).toNat + 4 ≤ m.ram.bytes.size
    omega
  exact ⟨hout, hst, hlast ▸ Ram.offset_of_range haligned' (UInt32.zero_le ..) hfits⟩

theorem RunOptions.Accepted.machine (h : o.Accepted files config image c) :
    o.machine files = .ok (c, o.loaded config image) := by
  unfold RunOptions.machine
  rw [h.configured]
  show (do
    let m ← o.memory files config.order
    let c ← o.processor files config m.outputAddr
    return (c, m)) = Except.ok (c, o.loaded config image)
  rw [h.memory]
  show (do
    let c ← o.processor files config (o.loaded config image).outputAddr
    return (c, o.loaded config image)) = Except.ok (c, o.loaded config image)
  rw [h.mailbox.1, h.processor]
  rfl

/-- What the command comes to after a run that ended at no unknown word. -/
theorem runImage_eq {m : Mailbox} {r : RunResult Mailbox} (hmachine : o.machine files = .ok (c, m))
    (hrun : c.run Mailbox.bus (fun _ m => m.finished) o.maxSteps m = r)
    (hreal : ∀ word, r.exit ≠ .unimplemented word) :
    runImage o files = .ended (String.join (r.device.outputs.map fun w => w.toNat.repr ++ "\n"))
      (o.dump.map fun path => (path, r.cpu.toJson.indented))
      (verdict r.exit r.steps r.device.status) := by
  unfold runImage
  rw [hmachine]
  dsimp only
  rw [hrun]
  split
  · rename_i word hexit
    exact absurd hexit (hreal word)
  · rfl

/-- A run that was stopped is judged by its status. -/
theorem verdict_stopped (steps : Nat) (w : Word) : verdict .stopped steps (some w) =
    if w = 0 then .ok ("PASS after " ++ steps.repr ++ " steps\n")
    else .error ("guest reported failure at line " ++ w.toNat.repr) := by
  by_cases h : w = 0
  · rw [if_pos h, h]
    rfl
  · rw [if_neg h]
    unfold verdict
    split
    · rename_i hw
      exact absurd (Option.some.inj hw) h
    · rename_i hw
      rw [Option.some.inj hw]
    · contradiction
    all_goals contradiction

theorem verdict_isOk_iff {exit : Exit} (steps : Nat) {status : Option Word} :
    (∃ text, verdict exit steps status = .ok text) ↔ exit = .stopped ∧ status = some 0 := by
  constructor
  · rintro ⟨text, h⟩
    unfold verdict at h
    split at h <;> first | exact ⟨rfl, rfl⟩ | cases h
  · rintro ⟨rfl, rfl⟩
    exact ⟨_, rfl⟩

/-- A program ends well if the command does and the file is written. -/
theorem Outcome.code_ending_eq_zero_iff {outcome : Outcome} {writeError : Option String} :
    (outcome.ending writeError).code = 0 ↔
      writeError = none ∧ ∃ out file text, outcome = .ended out file (.ok text) := by
  constructor
  · intro h
    unfold Outcome.ending at h
    split at h
    · exact absurd h (show (2 : UInt32) ≠ 0 by decide)
    · exact absurd h (show (134 : UInt32) ≠ 0 by decide)
    · exact absurd h (show (1 : UInt32) ≠ 0 by decide)
    · exact absurd h (show (1 : UInt32) ≠ 0 by decide)
    · exact ⟨rfl, _, _, _, rfl⟩
  · rintro ⟨rfl, out, file, text, rfl⟩
    rfl

/-- The command succeeds if the run is stopped with the status 0. -/
theorem runImage_isOk_iff {m : Mailbox} {r : RunResult Mailbox}
    (hmachine : o.machine files = .ok (c, m))
    (hrun : c.run Mailbox.bus (fun _ m => m.finished) o.maxSteps m = r) :
    (∃ out file text, runImage o files = .ended out file (.ok text)) ↔
      r.exit = .stopped ∧ r.device.status = some 0 := by
  by_cases hreal : ∀ word, r.exit ≠ .unimplemented word
  · rw [runImage_eq hmachine hrun hreal, ← verdict_isOk_iff r.steps]
    constructor
    · rintro ⟨out, file, text, hended⟩
      exact ⟨text, (Outcome.ended.inj hended).2.2⟩
    · rintro ⟨text, hok⟩
      exact ⟨_, _, text, congrArg _ hok⟩
  · obtain ⟨word, hword⟩ := not_forall_not.mp hreal
    have himage : runImage o files = .unimplemented (unimplementedReport r.cpu.pc word) := by
      unfold runImage
      rw [hmachine]
      dsimp only
      rw [hrun, hword]
    rw [himage, hword]
    exact iff_of_false nofun nofun

/-- **The exit code of a run is 0** exactly if its options describe a machine, the run is stopped
with the status 0, and the final state can be written. -/
theorem code_runImage_eq_zero_iff (o : RunOptions) (files : Files) (writeError : Option String) :
    ((runImage o files).ending writeError).code = 0 ↔
      writeError = none ∧ ∃ c m, o.machine files = .ok (c, m) ∧
        let r := c.run Mailbox.bus (fun _ m => m.finished) o.maxSteps m
        r.exit = .stopped ∧ r.device.status = some 0 := by
  rw [Outcome.code_ending_eq_zero_iff]
  refine and_congr_right fun _ => ?_
  cases hmachine : o.machine files with
  | error e =>
    have hfailed : runImage o files = .ended "" none (.error e) := by
      unfold runImage
      rw [hmachine]
      rfl
    rw [hfailed]
    refine iff_of_false ?_ ?_
    · rintro ⟨out, file, text, hended⟩
      cases (Outcome.ended.inj hended).2.2
    · rintro ⟨c, m, hmachine, -⟩
      cases hmachine
  | ok x =>
    obtain ⟨c, m⟩ := x
    rw [runImage_isOk_iff hmachine rfl]
    constructor
    · intro h
      exact ⟨c, m, rfl, h⟩
    · rintro ⟨c', m', hx, h⟩
      obtain ⟨rfl, rfl⟩ := Prod.mk.inj (Except.ok.inj hx)
      exact h

end Command

open Command in
/-- **A run is reported as it went.** Let the command start, and let the run come to no word
that is not implemented. However the run ends, the command prints the words stored at the last
address of the memory, in decimal, in order and each on a line. At most one word was stored
below that address. The command succeeds exactly if one was, it is 0, and the run was stopped;
otherwise its error names the other word, the budget that was spent, or the trap that was not
delivered. No run is stopped without a status. -/
theorem run_reported {o : RunOptions} {files : Files} {config : Configuration} {image : ByteArray}
    {c : Cpu} (h : o.Accepted files config image c) :
    let m := o.loaded config image
    o.machine files = .ok (c, m) ∧
      let r := c.run Mailbox.bus (fun _ m => m.finished) o.maxSteps m
      let outputs := storedAt (UInt32.ofNat (o.memSize - 4)) (c.journal m o.maxSteps)
      let statuses := storedAt (UInt32.ofNat (o.memSize - 8)) (c.journal m o.maxSteps)
      (∀ word, r.exit ≠ .unimplemented word) → ∃ v,
        runImage o files = .ended (String.join (outputs.map fun w => w.toNat.repr ++ "\n"))
          (o.dump.map fun path => (path, r.cpu.toJson.indented)) v ∧
        statuses.length ≤ 1 ∧ r.steps ≤ o.maxSteps ∧
        (v.isOk ↔ statuses = [0] ∧ r.exit = .stopped) ∧
        (r.exit = .stopped → r.device.status ≠ none) ∧
        ((∃ w, statuses = [w] ∧ r.exit = .stopped ∧ v =
            if w = 0 then .ok ("PASS after " ++ r.steps.repr ++ " steps\n")
            else .error ("guest reported failure at line " ++ w.toNat.repr)) ∨
          (statuses = [] ∧ r.exit = .budgetSpent ∧ r.steps = o.maxSteps ∧
            v = .error ("no completion status after " ++ o.maxSteps.repr ++ " steps")) ∨
          ∃ t, statuses = [] ∧ r.exit = .trapped t ∧ v = .error ("unhandled " ++ t.text)) := by
  intro m
  obtain ⟨hout, hst, hoffset⟩ := h.mailbox
  obtain ⟨hrecords, hone, hends⟩ := Mailbox.records_run hoffset o.maxSteps c rfl rfl
  have houtputs := hrecords.outputs
  have hlast := hrecords.status
  rw [hout] at houtputs
  rw [hst] at hone hends hlast
  refine ⟨h.machine, ?_⟩
  intro r outputs statuses hreal
  replace hlast : r.device.status = statuses.getLast? := hlast
  obtain ⟨hstopped, hspent, htrapped⟩ : (r.exit = .stopped → ∃ w, statuses = [w]) ∧
      (r.exit = .budgetSpent → statuses = [] ∧ r.steps = o.maxSteps) ∧
      ∀ t, r.exit = .trapped t → statuses = [] := hends
  have hsteps : r.steps ≤ 0 + o.maxSteps := Cpu.runFrom_steps_le ..
  have himage := runImage_eq h.machine rfl hreal
  have hjoin : (r.device.outputs.map fun w => w.toNat.repr ++ "\n") =
      outputs.map fun w => w.toNat.repr ++ "\n" := congrArg _ houtputs
  rw [hjoin] at himage
  refine ⟨_, himage, hone, Nat.zero_add o.maxSteps ▸ hsteps, ?_⟩
  rw [hlast]
  cases hexit : r.exit with
  | stopped =>
    obtain ⟨w, hw⟩ := hstopped hexit
    rw [hw, List.getLast?_singleton, verdict_stopped]
    refine ⟨?_, fun _ => nofun, .inl ⟨w, rfl, rfl, rfl⟩⟩
    by_cases hzero : w = 0
    · rw [if_pos hzero, hzero]
      exact iff_of_true rfl ⟨rfl, rfl⟩
    · rw [if_neg hzero]
      exact iff_of_false nofun fun h => hzero (List.singleton_inj.mp h.1)
  | budgetSpent =>
    obtain ⟨hnone, hall⟩ := hspent hexit
    rw [hall]
    exact ⟨iff_of_false nofun nofun, nofun, .inr (.inl ⟨hnone, rfl, rfl, rfl⟩)⟩
  | trapped t =>
    exact ⟨iff_of_false nofun nofun, nofun, .inr (.inr ⟨t, htrapped t hexit, rfl, rfl⟩)⟩
  | unimplemented word => exact absurd hexit (hreal word)

/-- One instruction, `std %g0, [%o0 - 4]`. -/
def pairImage : ByteArray := ⟨#[0xc0, 0x3a, 0x3f, 0xfc]⟩

def pairConfiguration : Configuration := { windows := 2, trapMode := .internal }

def pairOptions : Command.RunOptions where
  image := "pair.bin"
  state := none
  memSize := 4096
  entry := 0
  maxSteps := 10
  config := none
  windows := some 2
  trapMode := none
  order := none
  dump := none

/-- The stack pointer is below the save area, and `%o0` is the last address. -/
def pairStart : Cpu := ({ resetTwo with config := pairConfiguration }.set Reg.sp 3972).set Reg.o0 4092

/-- The instruction is the first word of the memory. -/
theorem fetched_pairStart : pairStart.fetched Mailbox.bus
    (pairOptions.loaded pairConfiguration pairImage) = some 0xc03a3ffc := by
  have hword := Ram.wordAt_setAll (Ram.zero 4096 0 .big) (o := 0) 0xc03a3ffc (by decide)
    (show 0 % 4 = 0 % 4 from rfl)
  rw [if_pos rfl] at hword
  exact Cpu.fetched_eq_some.mpr ⟨by decide, congrArg Except.ok hword⟩

/-- It stores a status and an output value, and nothing comes after it. -/
theorem step_pairStart :
    let x := pairStart.step.hold Mailbox.bus (pairOptions.loaded pairConfiguration pairImage)
    x.1.1 = .completed ∧ x.2.status = some 0 ∧ x.2.outputs = [0] := by
  intro x
  have hx : x = _ := Cpu.step_dispatched rfl rfl fetched_pairStart
  rw [hx]
  exact ⟨by decide, by decide, by decide⟩

/-- Status and output are stored by one instruction, and both are reported. -/
theorem run_reported_pair :
    Command.runImage pairOptions (fun _ => .ok pairImage) =
      .ended "0\n" none (.ok "PASS after 1 steps\n") ∧
    storedAt 4088 (pairStart.journal (pairOptions.loaded pairConfiguration pairImage) 10) = [0] := by
  have haccepted : pairOptions.Accepted (fun _ => .ok pairImage) pairConfiguration pairImage pairStart :=
    ⟨rfl, by decide, by decide, by decide, rfl, by decide, by decide +kernel⟩
  obtain ⟨hmachine, hreport⟩ := run_reported haccepted
  obtain ⟨hcompleted, hstatus, houtputs⟩ := step_pairStart
  rcases hhold : pairStart.step.hold Mailbox.bus (pairOptions.loaded pairConfiguration pairImage)
    with ⟨⟨result, c₁⟩, m₁⟩
  rw [hhold] at hcompleted hstatus houtputs
  obtain rfl : result = .completed := hcompleted
  have hbudget : pairOptions.maxSteps = 9 + 1 := rfl
  have hrun : pairStart.run Mailbox.bus (fun _ m => m.finished) (9 + 1)
      (pairOptions.loaded pairConfiguration pairImage) = ⟨.stopped, 1, 2, c₁, m₁⟩ :=
    (Cpu.runFrom_completed rfl hhold).trans (Cpu.runFrom_stopped (congrArg Option.isSome hstatus))
  rw [← hbudget] at hrun
  have hended := Command.runImage_eq hmachine hrun nofun
  dsimp only at hended houtputs hstatus
  rw [houtputs, hstatus] at hended
  obtain ⟨v, himage, -, -, hok, -, -⟩ := hreport (hrun ▸ nofun)
  rw [hended] at himage
  obtain ⟨-, -, rfl⟩ := Command.Outcome.ended.inj himage
  exact ⟨hended, (hok.mp rfl).1⟩

end SparcIU
