/-
# A saved state is restored

A saved state is the text that a serialization library writes of a processor. Of
the library nothing is known but what it documents; the declarations of the
configuration, the traps, the status register and the processor do the rest: no
name stands twice in any of them, no flag shares a bit with another, and every
value is found again in what it is declared as. So nothing of a processor is lost
in its saved state: neither the bits of the status register without a function, nor
the number of a software trap above 127, nor a configuration that no processor
could be built with.

Key theorems: `Configuration.lossless_codec`, `TrapKind.lossless_codec`,
`Psr.lossless_codec`, `Cpu.lossless_codec`, `Cpu.saved_state_lossless`,
`Cpu.restore_dump`.
-/
import SparcIU.StateJson
import SparcIU.Proofs.Codes
import SparcIU.Proofs.StandardLibrary

namespace SparcIU

variable {lib : Serialization} (h : lib.Documented) {depth : Nat}

theorem Codec.lossless_empty : Codec.empty.Lossless depth where
  read_write e := e.elim
  plain e := e.elim

theorem Psr.sound_flags : Psr.flags.Sound where
  names := by decide
  identifiers := by decide
  nonzero := by decide
  disjoint := by decide

include h

theorem TrapMode.lossless_codec : (TrapMode.codec lib).Lossless (depth + 1) :=
  (h.lossless_enum Codec.lossless_empty (by decide)).via fun m => by cases m <;> rfl

theorem ByteOrder.lossless_codec : (ByteOrder.codec lib).Lossless (depth + 1) :=
  (h.lossless_enum Codec.lossless_empty (by decide)).via fun o => by cases o <;> rfl

/-- **A configuration is restored**, with any number of windows. -/
theorem Configuration.lossless_codec : (Configuration.codec lib).Lossless (depth + 2) := by
  have hfields : (Configuration.fields lib).Lossless (depth + 1) :=
    ⟨h.lossless_byte, TrapMode.lossless_codec h, ByteOrder.lossless_codec h, trivial⟩
  have hnames : (Configuration.fields lib).names.Nodup :=
    show ["nwindows", "trap_mode", "endian"].Nodup by decide
  exact (h.lossless_struct true hnames hfields).via fun _ => rfl

/-- **A trap is restored**, with any number if it has one. -/
theorem TrapKind.lossless_codec : (TrapKind.codec lib).Lossless (depth + 1) :=
  (h.lossless_enum h.lossless_byte (by decide)).via fun t => by cases t <;> rfl

/-- **The status register is restored**, with the bits that have no name. -/
theorem Psr.lossless_codec : (Psr.codec lib).Lossless depth :=
  (h.lossless_flags Psr.sound_flags).via fun p => congrArg some p.ofBits_toBits

/-- **A processor is restored.** -/
theorem Cpu.lossless_codec : (Cpu.codec lib).Lossless (depth + 3) := by
  have htrap : (lib.option (TrapKind.codec lib)).Lossless (depth + 2) :=
    h.lossless_option (TrapKind.lossless_codec h) fun t => h.enum_ne_null t.toVariant
  have htarget : (lib.option lib.word).Lossless (depth + 2) :=
    h.lossless_option h.lossless_word h.word_ne_null
  have hfields : (Cpu.fields lib).Lossless (depth + 2) :=
    ⟨h.lossless_word, h.lossless_word, h.lossless_array h.lossless_word, Psr.lossless_codec h,
      h.lossless_word, h.lossless_word, h.lossless_word, htrap, h.lossless_bool, htarget,
      Configuration.lossless_codec h, trivial⟩
  have hnames : (Cpu.fields lib).names.Nodup :=
    show ["pc", "npc", "regs", "psr", "wim", "tbr", "y", "pending_trap", "pending_annul",
      "branch_target", "cfg"].Nodup by decide
  exact (h.lossless_struct false hnames hfields).via fun _ => rfl

omit h

/-- **The saved state is lossless.** With any library that behaves as documented, for every
processor, whatever its configuration, registers, status bits, pending trap and queued target,
the text that is written of it is read back as that processor, in the compact form and in the
form with a line for each item. -/
theorem Cpu.saved_state_lossless {lib : Serialization} (h : lib.Documented) (c : Cpu) :
    lib.restore? (Cpu.codec lib) (lib.save (Cpu.codec lib) c) = some c ∧
      lib.restore? (Cpu.codec lib) (lib.saveIndented (Cpu.codec lib) c) = some c :=
  h.restore_save (Cpu.lossless_codec h) c

/-- A processor that no program could build: 255 windows but two registers, a software trap
above 127, a partly set window number and bits of the status register without a function. -/
def Cpu.strange : Cpu where
  pc := 0xffffffff
  npc := 2
  regs := #[0, 0xffffffff]
  psr := Psr.ofBits 0xf0f00fe3
  wim := 0x80000001
  tbr := 0xfff
  y := 0x80000000
  pendingTrap := some (.software 255)
  pendingAnnul := true
  branchTarget := some 0xffffffff
  config := { windows := 255, trapMode := .internal, order := .little }

/-- The text of the strange processor, and the processor of the text. -/
theorem Cpu.saved_state_lossless_strange :
    let lib := Serialization.standard
    let text := "\x7b\"pc\":4294967295,\"npc\":2,\"regs\":[0,4294967295]," ++
      "\"psr\":\"N | Z | V | C | S | PS | ET | 0xf0000f03\",\"wim\":2147483649,\"tbr\":4095," ++
      "\"y\":2147483648,\"pending_trap\":\x7b\"Software\":255\x7d,\"pending_annul\":true," ++
      "\"branch_target\":4294967295,\"cfg\":\x7b\"nwindows\":255,\"trap_mode\":\"internal\"," ++
      "\"endian\":\"little\"\x7d\x7d"
    lib.Documented ∧ lib.save (Cpu.codec lib) Cpu.strange = text ∧
      lib.restore? (Cpu.codec lib) text = some Cpu.strange := by
  intro lib text
  have htext : lib.save (Cpu.codec lib) Cpu.strange = text := by decide +kernel
  have hrestore := (Cpu.saved_state_lossless Serialization.standard_documented Cpu.strange).1
  exact ⟨Serialization.standard_documented, htext, htext ▸ hrestore⟩

/-- The final state that a run writes to a file is read back as the processor of the run. -/
theorem Cpu.restore_dump (c : Cpu) :
    Serialization.standard.restore? (Cpu.codec .standard) c.toJson.indented = some c :=
  have h := Serialization.standard_documented
  (h.restore_save (Cpu.lossless_codec h) c).2

end SparcIU
