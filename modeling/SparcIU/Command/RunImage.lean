/-
# The run command

Runs an image from address 0 of a fresh memory with a mailbox, until the guest
reports a status or the budget is spent. The guest finds the stack pointer below
the mailbox and a save area, and the address for its output in `%o0`. It prints
the output values, and if wanted writes the final state.

Key definitions: `RunOptions`, `RunOptions.parse?`, `RunOptions.configuration`,
`RunOptions.machine`, `runImage`.
-/
import SparcIU.Command.Arguments
import SparcIU.Command.Number
import SparcIU.Command.Outcome
import SparcIU.Execution.Run
import SparcIU.Mailbox
import SparcIU.Record
import SparcIU.StateJson

namespace SparcIU
namespace Command

structure RunOptions where
  image : String
  /-- A state record to go on from. -/
  state : Option String
  memSize : Nat
  entry : Word
  maxSteps : Nat
  config : Option String
  windows : Option UInt8
  trapMode : Option TrapMode
  order : Option ByteOrder
  /-- Where to write the final state. -/
  dump : Option String

namespace RunOptions

def specs : List OptionSpec :=
  [{ name := "mem-size" }, { name := "entry", letter := some 'e' }, { name := "max-steps" },
   { name := "config" }, { name := "windows" }, { name := "trap-mode" }, { name := "endian" },
   { name := "dump-state" }]

/-- The image, and perhaps a state record. -/
def files? : List String → Option (String × Option String)
  | [image] => (readPath image).map (·, none)
  | [image, state] =>
    match readPath image, readPath state with
    | some image, some state => some (image, some state)
    | _, _ => none
  | _ => none

def parse? (args : List String) : Option RunOptions := do
  let a ← Arguments.parse? specs [] args
  let (image, state) ← files? a.positional
  let memSize ← a.read? "mem-size" 0x100000 readCount
  let entry ← a.read? "entry" 0 fun s => (readWord s).toOption
  let maxSteps ← a.read? "max-steps" 10000000 readCount
  let config ← a.readOptional? "config" readPath
  let windows ← a.readOptional? "windows" readByte
  let trapMode ← a.readOptional? "trap-mode" TrapMode.ofLabel?
  let order ← a.readOptional? "endian" ByteOrder.ofLabel?
  let dump ← a.readOptional? "dump-state" readPath
  some { image, state, memSize, entry, maxSteps, config, windows, trapMode, order, dump }

/-- The files the command reads. -/
def inputs (o : RunOptions) : List String := o.config.toList ++ o.image :: o.state.toList

/-- The configuration: from its file, or with internal trap delivery if there is
none, and then as the options say. -/
def configuration (o : RunOptions) (files : Files) : Except String Configuration := do
  let base ← match o.config with
    | none => pure { trapMode := .internal }
    | some path =>
      match (files path).toOption.bind String.fromUTF8? with
      | none => throw ("reading config " ++ path)
      | some s =>
        match Configuration.parse? s with
        | none => throw ("parsing config " ++ path)
        | some c => pure c
  return {
    windows := o.windows.getD base.windows
    trapMode := o.trapMode.getD base.trapMode
    order := o.order.getD base.order }

/-- The bytes above the first stack pointer: the output word and a save area. -/
def stackReserve : Word := 124

/-- The memory with the image. -/
def memory (o : RunOptions) (files : Files) (order : ByteOrder) : Except String Mailbox :=
  if o.memSize < 4096 ∨ o.memSize % 4 ≠ 0 then
    .error "--mem-size must be a multiple of 4 and at least 4096"
  else if 0x100000000 ≤ o.memSize then .error "--mem-size exceeds the 32-bit address space"
  else
    match files o.image with
    | .error _ => .error ("reading image " ++ o.image)
    | .ok image =>
      match (Ram.zero o.memSize 0 order).loadImage 0 image with
      | .error e => .error e.message
      | .ok ram => .ok { ram }

/-- The processor at the entry, or in the state of the record. -/
def processor (o : RunOptions) (files : Files) (config : Configuration) (outputAddr : Word) :
    Except String Cpu :=
  match Cpu.ofConfiguration config with
  | .error e => .error e.message
  | .ok c =>
    let c := c.reset o.entry
    let c := (c.set Reg.sp (UInt32.ofNat o.memSize - stackReserve)).set Reg.o0 outputAddr
    match o.state with
    | none => .ok c
    | some path =>
      match files path with
      | .error _ => .error ("reading state " ++ path)
      | .ok bytes =>
        match c.loadRecord bytes config.order with
        | .error e => .error e.message
        | .ok c => .ok c

/-- The machine that the options describe. -/
def machine (o : RunOptions) (files : Files) : Except String (Cpu × Mailbox) := do
  let config ← o.configuration files
  let m ← o.memory files config.order
  let c ← o.processor files config m.outputAddr
  return (c, m)

end RunOptions

/-- How the command ends after a run. -/
def verdict (exit : Exit) (steps : Nat) (status : Option Word) : Except String String :=
  match exit, status with
  | .stopped, some 0 => .ok ("PASS after " ++ steps.repr ++ " steps\n")
  | .stopped, some line => .error ("guest reported failure at line " ++ line.toNat.repr)
  | .stopped, none => .error "stopped without a completion status"
  | .budgetSpent, _ => .error ("no completion status after " ++ steps.repr ++ " steps")
  | .trapped t, _ => .error ("unhandled " ++ t.text)
  | .unimplemented _, _ => .error "unimplemented instruction"

/-- What the command prints, writes and ends with. -/
def runImage (o : RunOptions) (files : Files) : Outcome :=
  match o.machine files with
  | .error e => .failed e
  | .ok (c, m) =>
    let r := c.run Mailbox.bus (fun _ m => m.finished) o.maxSteps m
    match r.exit with
    | .unimplemented word => .unimplemented (unimplementedReport r.cpu.pc word)
    | exit =>
      .ended (String.join (r.device.outputs.map fun v => v.toNat.repr ++ "\n"))
        (o.dump.map fun path => (path, r.cpu.toJson.indented))
        (verdict exit r.steps r.device.status)

end Command
end SparcIU
