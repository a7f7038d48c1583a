/-
# Memory with a mailbox

The last two words of the memory are how a guest program talks to its host: the
last one collects output values, the one below it receives a status when the
program is done, 0 for success and else the line that failed. Both are ordinary
words besides.

Key definitions: `Mailbox`, `Mailbox.outputAddr`, `Mailbox.statusAddr`,
`Mailbox.write`, `Mailbox.bus`, `Mailbox.noticing`.
-/
import SparcIU.Ram

namespace SparcIU

structure Mailbox where
  ram : Ram
  /-- The output values, latest first. -/
  sent : List Word := []
  /-- The last status. -/
  status : Option Word := none

namespace Mailbox

/-- The output values in the order they were written. -/
def outputs (m : Mailbox) : List Word := m.sent.reverse

/-- The last word of the memory. -/
def outputAddr (m : Mailbox) : Word := m.ram.base + UInt32.ofNat m.ram.bytes.size - 4

/-- The word below it. -/
def statusAddr (m : Mailbox) : Word := m.outputAddr - 4

def finished (m : Mailbox) : Bool := m.status.isSome

/-- Takes note of a word that was written. -/
def receive (m : Mailbox) (addr v : Word) : Mailbox :=
  if addr = m.outputAddr then { m with sent := v :: m.sent }
  else if addr = m.statusAddr then { m with status := some v }
  else m

/-- What is said about a word that was written. -/
def notice (m : Mailbox) (addr v : Word) : Option Remark :=
  if addr = m.outputAddr then some (.output v)
  else if addr = m.statusAddr then some (if v = 0 then .passed else .failed v)
  else none

def read (m : Mailbox) (addr : Word) : Except Fault Word := m.ram.read addr

/-- Only a write that the memory accepts reaches the mailbox. -/
def write (m : Mailbox) (addr v : Word) : Except Fault Unit × Mailbox :=
  let ⟨ram, sent, status⟩ := m
  match ram.write addr v with
  | (.error e, ram) => (.error e, ⟨ram, sent, status⟩)
  | (.ok (), ram) => (.ok (), Mailbox.receive ⟨ram, sent, status⟩ addr v)

/-- The memory and its mailbox as a device. -/
def bus : Bus Mailbox where
  read addr m := (m.read addr, m)
  write addr v m := m.write addr v

/-- The same device with what it has said: a remark for every word that has reached the mailbox.
What the processor says goes elsewhere. -/
def noticing : Bus (Mailbox × List Remark) where
  read addr x := (x.1.read addr, x)
  write addr v x :=
    match x.1.write addr v with
    | (.error e, m) => (.error e, m, x.2)
    | (.ok (), m) => (.ok (), m, x.2 ++ (x.1.notice addr v).toList)

end Mailbox
end SparcIU
