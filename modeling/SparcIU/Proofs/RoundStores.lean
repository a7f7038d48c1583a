/-
# What a round stores

A round of a run stores no two words at one address. An instruction stores one word, or two
next to each other, and a spill stores sixteen in a row. Only one of the two happens in a
round: an instruction that has stored a word and traps all the same was refused the second
word of a pair (`Cpu.StoresApart.cut`), and the delivery of that trap stores nothing.

Key definitions: `storedAddrs`, `storedAt`, `Cpu.StoresApart`.
Key theorems: `length_storedAt_le_one`, `Cpu.storesApart_step`,
`Cpu.always_deliver_stores`, `Cpu.round_stores`.
-/
import Mathlib.Data.List.Nodup
import SparcIU.Proofs.Refusal

namespace SparcIU

/-! ### The words stored at an address -/

/-- Where the words went that a row of accesses stored. -/
def storedAddrs (l : List Access) : List Word := (stores l).map Prod.fst

/-- The words that a row of accesses stored at one address, in order. -/
def storedAt (a : Word) (l : List Access) : List Word :=
  ((stores l).filter fun x => x.1 = a).map Prod.snd

section Stored

variable {a : Word} {l l' : List Access}

theorem stores_append : stores (l ++ l') = stores l ++ stores l' := List.filterMap_append

theorem storedAt_append : storedAt a (l ++ l') = storedAt a l ++ storedAt a l' := by
  unfold storedAt
  rw [stores_append, List.filter_append, List.map_append]

theorem mem_storedAt {v : Word} : v ∈ storedAt a l ↔ (a, v) ∈ stores l := by
  simp [storedAt]

/-- At addresses that are all different a word is stored once at most. -/
theorem length_storedAt_le_one (h : (storedAddrs l).Nodup) (a : Word) :
    (storedAt a l).length ≤ 1 := by
  have hcount : (storedAt a l).length = (storedAddrs l).count a := by
    unfold storedAt storedAddrs
    rw [List.length_map, ← List.countP_eq_length_filter, List.count, List.countP_map]
    refine List.countP_congr fun x _ => ?_
    simp
  rw [hcount]
  exact List.nodup_iff_count_le_one.mp h a

/-- Words are stored where accesses are made. -/
theorem storedAddrs_sublist (l : List Access) : (storedAddrs l).Sublist (l.map Access.addr) := by
  induction l with
  | nil => exact .slnil
  | cons x l ih =>
    rcases x with ⟨addr, answer⟩ | ⟨addr, v, ⟨e⟩ | _⟩
    · exact ih.cons addr
    · exact ih.cons addr
    · exact ih.cons_cons addr

end Stored

namespace Cpu

variable {c c' : Cpu} {l : List Access}

/-! ### Instructions -/

/-- An instruction that made the accesses `l` and left `c'` stored at different addresses,
and if it trapped then only in front of a word next to it that was refused. -/
structure StoresApart (l : List Access) (c' : Cpu) : Prop where
  apart : (storedAddrs l).Nodup
  cut : ∀ t, c'.pendingTrap = some t → ∀ x ∈ stores l,
    t = .dataAccess ∧ ∃ v e, Access.write (x.1 + 4) v (.error e) ∈ l

theorem StoresApart.of_none (h : stores l = []) : StoresApart l c' := by
  refine ⟨?_, fun t _ x hx => ?_⟩
  · rw [storedAddrs, h]
    exact .nil
  · rw [h] at hx
    exact absurd hx List.not_mem_nil

theorem StoresApart.of_completed (h : (storedAddrs l).Nodup) (hp : c'.pendingTrap = none) :
    StoresApart l c' := by
  refine ⟨h, fun t ht => ?_⟩
  rw [hp] at ht
  cases ht

theorem storesApart_load (hp : c.pendingTrap = none) (kind : LoadKind) (addr : Word) (rd : Reg) :
    (c.load kind addr rd).Always fun l c' => StoresApart l c' := by
  cases kind with
  | word | unsignedByte | unsignedHalf | signedByte | signedHalf =>
    simp only [load]
    exact always_readWord (fun _ _ => .of_none rfl) (fun _ _ => .of_none rfl) fun _ => .of_none rfl
  | double =>
    simp only [load]
    refine always_readWord (fun _ _ => ?_) (fun _ _ => .of_none rfl) fun _ => .of_none rfl
    exact always_readWord (fun _ _ => .of_none rfl) (fun _ _ => .of_none rfl) fun _ => .of_none rfl
  | testAndSet =>
    simp only [load]
    refine always_readWord (fun w _ => ?_) (fun _ _ => .of_none rfl) fun _ => .of_none rfl
    refine always_writeWord (fun _ => ?_) (fun _ _ => .of_none rfl) fun _ => .of_none rfl
    exact .of_completed (List.nodup_singleton _) ((set_pendingTrap ..).trans hp)

theorem storesApart_store (hp : c.pendingTrap = none) (kind : StoreKind) (addr : Word) (rd : Reg) :
    (c.store kind addr rd).Always fun l c' => StoresApart l c' := by
  cases kind with
  | word =>
    simp only [store]
    refine always_writeWord (fun _ => ?_) (fun _ _ => .of_none rfl) fun _ => .of_none rfl
    exact .of_completed (List.nodup_singleton _) hp
  | byte | half =>
    simp only [store]
    refine always_readWord (fun w _ => ?_) (fun _ _ => .of_none rfl) fun _ => .of_none rfl
    refine always_writeWord (fun _ => ?_) (fun _ _ => .of_none rfl) fun _ => .of_none rfl
    exact .of_completed (List.nodup_singleton _) hp
  | double =>
    simp only [store]
    refine always_writeWord (fun ha => ?_) (fun _ _ => .of_none rfl) fun _ => .of_none rfl
    refine always_writeWord (fun _ => ?_) (fun e _ => ⟨List.nodup_singleton _, ?_⟩) fun hmis => ?_
    · refine .of_completed (List.nodup_cons.mpr ⟨fun hmem => ?_, List.nodup_singleton _⟩) hp
      have hself : addr = addr + 4 := List.mem_singleton.mp hmem
      exact absurd (UInt32.left_eq_add.mp hself) (by decide)
    · rintro t ht x hx
      obtain rfl := List.mem_singleton.mp hx
      exact ⟨(Option.some.inj ht).symm, _, e, List.mem_cons_of_mem _ List.mem_cons_self⟩
    · exact absurd (Word.isAligned_add_four ha) hmis

theorem storesApart_execute (hp : c.pendingTrap = none) (i : Instr) :
    (c.execute i).Always fun l c' => StoresApart l c' := by
  cases i with
  | load kind alternate rs1 src rd => exact storesApart_load hp ..
  | store kind rd rs1 src => exact storesApart_store hp ..
  | _ => exact .of_none rfl

/-! ### Steps and deliveries -/

/-- The fetch stores nothing, and the end of an instruction leaves its trap pending. -/
theorem StoresApart.outcome (h : StoresApart l c') (addr : Word) (answer : Except Fault Word) :
    StoresApart (.read addr answer :: l) c'.outcome.2 := by
  refine ⟨h.apart, fun t ht x hx => ?_⟩
  have hp : c'.pendingTrap = some t := by
    unfold Cpu.outcome at ht
    split at ht
    · exact ht
    · exact ht
  obtain ⟨hkind, v, e, hmem⟩ := h.cut t hp x hx
  exact ⟨hkind, v, e, List.mem_cons_of_mem _ hmem⟩

theorem storesApart_step (c : Cpu) : c.step.Always fun l r => StoresApart l r.2 := by
  refine always_step (fun _ => .of_none rfl) (fun _ _ => .of_none rfl) (fun _ _ _ _ => .of_none rfl)
    (fun _ _ _ _ => .of_none rfl) (fun _ _ _ _ _ => .of_none rfl) ?_
  intro word _ hp _ _
  exact (storesApart_execute (c := c.clearZero) hp _).mono fun l c₁ h => h.outcome ..

theorem always_loadWindow_stores (c : Cpu) (addr : Word) (rs : List Reg) :
    (c.loadWindow addr rs).Always fun l _ => stores l = [] := by
  induction rs generalizing c addr with
  | nil => exact rfl
  | cons r rs ih =>
    intro answer
    cases answer with
    | ok v => exact ih (c.set r v) (addr + 4)
    | error e => exact ih c (addr + 4)

/-- A save area is sixteen words at different addresses. -/
theorem always_storeWindow_stores (c : Cpu) (addr : Word) :
    (c.storeWindow addr Reg.saveArea).Always fun l _ => (storedAddrs l).Nodup := by
  refine (addrs_storeWindow c addr Reg.saveArea).mono fun l _ hl => ?_
  have hslots : ((List.range 16).map (slot addr)).Nodup := by
    refine List.Nodup.map_on (fun j hj k hk he => ?_) List.nodup_range
    exact (slot_inj (List.mem_range.mp hj) (List.mem_range.mp hk)).mp he
  have hsublist := storedAddrs_sublist l
  rw [hl] at hsublist
  exact hslots.sublist hsublist

theorem always_serve_stores (c : Cpu) (routine : Routine) :
    (c.serve routine).Always fun l _ => (storedAddrs l).Nodup ∧ (routine = .vector → stores l = []) := by
  cases routine with
  | vector => exact ⟨.nil, fun _ => rfl⟩
  | spill =>
    unfold serve spill
    refine .map (.map ?_)
    split
    · exact ⟨.nil, nofun⟩
    · have hstore := always_storeWindow_stores (c.rotate .down) ((c.rotate .down).get Reg.sp)
      exact hstore.mono fun l _ hl => ⟨hl, nofun⟩
  | fill =>
    unfold serve fill
    refine .map (.map ?_)
    have hnone : ∀ l : List Access, stores l = [] →
        (storedAddrs l).Nodup ∧ (Routine.fill = .vector → stores l = []) := by
      intro l hl
      refine ⟨?_, nofun⟩
      rw [storedAddrs, hl]
      exact .nil
    split
    · exact hnone [] rfl
    · exact (always_loadWindow_stores ..).mono fun l _ hl => hnone l hl

/-- A delivery stores at different addresses. That of a refused access stores nothing, and
neither does one that is refused itself. -/
theorem always_deliver_stores (c : Cpu) : c.deliver.Always fun l r => (storedAddrs l).Nodup ∧
    (c.pendingTrap = some .dataAccess ∨ r.1 ≠ none → stores l = []) := by
  cases hp : c.pendingTrap with
  | none =>
    unfold deliver
    rw [hp]
    exact ⟨.nil, fun _ => rfl⟩
  | some t =>
    cases hroutine : c.config.trapMode.routine t with
    | none =>
      unfold deliver
      rw [hp]
      simp only [hroutine]
      exact ⟨.nil, fun _ => rfl⟩
    | some routine =>
      rw [deliver_eq hp hroutine, Dialogue.always_remark]
      refine .map ((always_serve_stores _ _).mono ?_)
      rintro l c' ⟨hapart, hvector⟩
      refine ⟨hapart, fun h => hvector ?_⟩
      obtain rfl : t = .dataAccess := Option.some.inj (h.resolve_right fun hne => hne rfl)
      cases hmode : c.config.trapMode with
      | vectored =>
        rw [hmode] at hroutine
        exact (Option.some.inj hroutine).symm
      | internal =>
        rw [hmode] at hroutine
        cases hroutine

/-! ### Rounds -/

/-- **What a round stores.** All of it goes to different addresses. If the round ends the run
in a trap, each word it stored is in front of one that was refused. -/
theorem round_stores {σ : Type} {bus : Bus σ} {steps : Nat} {s : σ} {o : Option Exit}
    {x : σ × List Access} (hround : c.round bus.logged steps (s, l) = (o, c', x)) :
    ∃ l', x.2 = l ++ l' ∧ (storedAddrs l').Nodup ∧ ∀ t, o = some (.trapped t) →
      ∀ y ∈ stores l', ∃ v e, Access.write (y.1 + 4) v (.error e) ∈ l' := by
  have hstep := (storesApart_step c).hold bus s
  have hpending := (always_step_trapped c).hold bus s
  unfold round at hround
  rw [Dialogue.hold_logged] at hround
  rcases hhold : c.step.hold bus s with ⟨⟨result, c₁⟩, s₁⟩
  rw [hhold] at hround hstep hpending
  cases result with
  | completed | unimplemented word =>
    cases hround
    exact ⟨_, rfl, hstep.apart, nofun⟩
  | trapped t =>
    obtain ⟨hp, -⟩ := hpending t c₁ rfl
    obtain ⟨hdeliver, hnone⟩ := (always_deliver_stores c₁).hold bus s₁
    dsimp only at hround
    rw [Dialogue.hold_logged, List.append_assoc] at hround
    rcases hhold₁ : c₁.deliver.hold bus s₁ with ⟨⟨refused, c₂⟩, s₂⟩
    rw [hhold₁] at hround hnone
    -- only one of the two stores anything
    have hone : stores (c.step.transcript bus s) = [] ∨ stores (c₁.deliver.transcript bus s₁) = [] := by
      refine or_iff_not_imp_left.mpr fun hne => ?_
      obtain ⟨y, hy⟩ := List.exists_mem_of_ne_nil _ hne
      exact hnone (.inl ((hstep.cut _ hp y hy).1 ▸ hp))
    have hapart : (storedAddrs (c.step.transcript bus s ++ c₁.deliver.transcript bus s₁)).Nodup := by
      have hfirst := hstep.apart
      unfold storedAddrs at hfirst hdeliver ⊢
      rw [stores_append]
      rcases hone with h | h
      · rwa [h, List.nil_append]
      · rwa [h, List.append_nil]
    cases refused with
    | none =>
      cases hround
      exact ⟨_, rfl, hapart, nofun⟩
    | some refused =>
      cases hround
      refine ⟨_, rfl, hapart, fun _ _ y hy => ?_⟩
      rw [stores_append, hnone (.inr nofun), List.append_nil] at hy
      obtain ⟨-, v, e, hmem⟩ := hstep.cut _ hp y hy
      exact ⟨v, e, List.mem_append_left _ hmem⟩

end Cpu
end SparcIU
