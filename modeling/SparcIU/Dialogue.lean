/-
# Dialogues with the bus

An instruction reads and writes memory through a bus, one word at a time, and
what it does next depends on the answers. A `Dialogue` is that conversation as
a value: it asks for a read or a write and goes on with the answer, it makes a
remark that needs no answer, or it is done. A `Bus` answers from a device with
a state of its own. Since a dialogue meets its bus only when it is held, a
statement about a dialogue is a statement about every bus.

Key definitions: `Fault`, `Remark`, `Dialogue`, `Bus`, `Dialogue.hold`.
-/
import SparcIU.Trap
import SparcIU.Instruction.OfWord
import SparcIU.Instruction.Assembly

namespace SparcIU

/-- Why a device refuses an access. -/
inductive Fault where
  | unaligned (addr : Word)
  | belowBase (addr base : Word)
  | outOfRange (addr : Word)
  /-- A device's own words. -/
  | other (text : String)
  deriving DecidableEq, Repr

def Fault.message : Fault → String
  | unaligned a => "unaligned word access at " ++ Numeral.hexPadded 8 a.toNat
  | belowBase a base => "address " ++ Numeral.hexPadded 8 a.toNat ++ " below memory base "
      ++ Numeral.hexPadded 8 base.toNat
  | outOfRange a => "address " ++ Numeral.hexPadded 8 a.toNat ++ " out of range"
  | other s => s

/-- What the processor, a device or a run has to say while it works. -/
inductive Remark where
  | executes (pc : Word) (i : Instr)
  | annuls (pc : Word) (i : Instr)
  | misalignedFetch (pc : Word)
  | fetchFailed (pc : Word) (e : Fault)
  | misalignedLoad (addr : Word)
  | loadFailed (addr : Word) (e : Fault)
  | misalignedStore (addr : Word)
  | storeFailed (addr : Word) (e : Fault)
  | raises (pc : Word) (t : TrapKind)
  | enters (pc npc : Word) (cwp : Nat) (t : TrapKind)
  | spillFailed (addr : Word) (cwp : Nat) (e : Fault)
  | fillSkipped (cwp : Nat)
  | fillFailed (addr : Word) (cwp : Nat) (e : Fault)
  | delivered (steps : Nat) (t : Trap)
  | unimplemented (pc word : Word)
  | output (value : Word)
  | passed
  | failed (line : Word)
  deriving DecidableEq, Repr

/-- A conversation with the bus that ends in an `α`. -/
inductive Dialogue (α : Type) where
  | done (a : α)
  | read (addr : Word) (next : Except Fault Word → Dialogue α)
  | write (addr value : Word) (next : Except Fault Unit → Dialogue α)
  | remark (r : Remark) (rest : Dialogue α)

/-- What answers a dialogue. A bus that keeps no journal ignores the remarks. -/
structure Bus (σ : Type) where
  read : Word → σ → Except Fault Word × σ
  write : Word → Word → σ → Except Fault Unit × σ
  hear : Remark → σ → σ := fun _ s => s

namespace Dialogue

/-- The dialogue with its result changed. -/
def map (f : α → β) : Dialogue α → Dialogue β
  | done a => done (f a)
  | read addr next => read addr fun answer => (next answer).map f
  | write addr v next => write addr v fun answer => (next answer).map f
  | remark r rest => remark r (rest.map f)

/-- One dialogue, and then the one its result calls for. -/
def bind (d : Dialogue α) (f : α → Dialogue β) : Dialogue β :=
  match d with
  | done a => f a
  | read addr next => read addr fun answer => (next answer).bind f
  | write addr v next => write addr v fun answer => (next answer).bind f
  | remark r rest => remark r (rest.bind f)

/-- The dialogue held with a bus: its result and the device afterwards. -/
def hold (bus : Bus σ) : Dialogue α → σ → α × σ
  | done a, s => (a, s)
  | read addr next, s =>
    match bus.read addr s with
    | (answer, s) => (next answer).hold bus s
  | write addr v next, s =>
    match bus.write addr v s with
    | (answer, s) => (next answer).hold bus s
  | remark r rest, s => rest.hold bus (bus.hear r s)

end Dialogue
end SparcIU
