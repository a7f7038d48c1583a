/-
# The listing command

Maps a file, or a part of it, at an address, and prints the table of its
segments or the listing of a range.

Key definitions: `ListOptions`, `ListOptions.parse?`, `listImage`.
-/
import SparcIU.Command.Arguments
import SparcIU.Command.Number
import SparcIU.Command.Outcome
import SparcIU.Listing
import SparcIU.StateJson

namespace SparcIU
namespace Command

/-- How a listing is written. -/
inductive ListFormat where
  | text
  | json
  deriving DecidableEq, Repr

def ListFormat.ofLabel? (s : String) : Option ListFormat :=
  if s = "text" then some text else if s = "json" then some json else none

/-- What is to be printed. -/
inductive ListCommand where
  | sections
  | range (start stop : Word) (showBytes : Bool) (format : ListFormat) (out : Option String)

structure ListOptions where
  base : Word
  skip : Nat
  input : String
  length : Option Nat
  order : ByteOrder
  command : ListCommand

namespace ListOptions

def specs : List OptionSpec :=
  [{ name := "base" }, { name := "skip" }, { name := "len" }, { name := "endian" }]

def rangeSpecs : List OptionSpec :=
  [{ name := "show-bytes", takesValue := false }, { name := "format" }, { name := "out" }]

/-- The arguments of a range. -/
def range? (args : List String) : Option ListCommand := do
  let a ← Arguments.parse? rangeSpecs [] args
  match a.positional with
  | [start, stop] =>
    let start ← (readWord start).toOption
    let stop ← (readWord stop).toOption
    let format ← a.read? "format" .text ListFormat.ofLabel?
    some (.range start stop (a.has "show-bytes") format (a.value? "out"))
  | _ => none

/-- The segment table takes no arguments. -/
def sections? (args : List String) : Option ListCommand := do
  let a ← Arguments.parse? [] [] args
  if a.positional.isEmpty then some .sections else none

/-- The words that end the arguments of the command itself. `help` is one of
them, though it lists nothing: a file of that name is written with a path. -/
def subcommands : List String := ["sections", "range", "help"]

/-- The subcommand. -/
def command? : Option (String × List String) → Option ListCommand
  | some ("sections", args) => sections? args
  | some ("range", args) => range? args
  | _ => none

def parse? (args : List String) : Option ListOptions := do
  let a ← Arguments.parse? specs subcommands args
  match a.positional with
  | [input] =>
    let base ← a.read? "base" 0 fun s => (readWord s).toOption
    let skip ← a.read? "skip" 0 readCount
    let length ← a.readOptional? "len" readCount
    let order ← a.read? "endian" .big ByteOrder.ofLabel?
    let command ← command? a.subcommand
    some { base, skip, input, length, order, command }
  | _ => none

end ListOptions

/-- The rows of a listing in a format. -/
def ListFormat.render (format : ListFormat) (showBytes : Bool) (order : ByteOrder)
    (rows : List Row) : String :=
  match format with
  | text => String.join (rows.map fun r => r.line showBytes order)
  | json => (Json.array (rows.map Row.toJson)).indented

/-- What the command prints, writes and ends with. On the terminal JSON ends in
a line break. -/
def listImage (o : ListOptions) (files : Files) : Outcome :=
  match files o.input with
  | .error e => .failed e
  | .ok file =>
    match Image.ofFile file o.base o.skip o.length o.order with
    | .error e => .failed e.message
    | .ok img =>
      match o.command with
      | .sections => .ended img.segmentTable none (.ok "")
      | .range start stop showBytes format out =>
        if stop < start then .failed "end must be >= start"
        else
          let listing := format.render showBytes o.order (img.rows start stop)
          match out, format with
          | some path, _ => .ended "" (some (path, listing)) (.ok "")
          | none, .json => .ended (listing ++ "\n") none (.ok "")
          | none, .text => .ended listing none (.ok "")

end Command
end SparcIU
