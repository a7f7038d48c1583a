/-
# Command line arguments

A command takes positional arguments and options, in any order, and may end in a
subcommand with arguments of its own. An option is written `--name value` or
`--name=value`, one with a letter also `-n value`, `-nvalue` or `-n=value`. A
value that stands alone does not begin with a dash, unless it is a dash. No
option is given twice. After `--` all arguments are positional.

Key definitions: `OptionSpec`, `Arguments`, `Arguments.parse?`.
-/

namespace SparcIU
namespace Command

/-- An option that a command knows. -/
structure OptionSpec where
  name : String
  letter : Option Char := none
  takesValue : Bool := true

/-- The arguments of a command. -/
structure Arguments where
  /-- In the order they were given. -/
  positional : List String := []
  /-- The options that were given, each with its value; a switch has the empty
  one. -/
  options : List (String × String) := []
  /-- The subcommand with its arguments. -/
  subcommand : Option (String × List String) := none

namespace Arguments

/-- The value of an option, if it was given. -/
def value? (a : Arguments) (name : String) : Option String := a.options.lookup name

/-- Whether a switch was given. -/
def has (a : Arguments) (name : String) : Bool := (a.value? name).isSome

def addPositional (a : Arguments) (s : String) : Arguments :=
  { a with positional := s :: a.positional }

/-- Records an option; none if it was given before. -/
def addOption? (a : Arguments) (name value : String) : Option Arguments :=
  if a.has name then none else some { a with options := (name, value) :: a.options }

/-- An argument by its form. -/
inductive Form where
  | terminator
  | long (name : String) (attached : Option String)
  | short (letter : Char) (attached : Option String)
  | plain

/-- The text before the first equals sign, and the text after it. -/
def splitEquals : List Char → List Char × Option (List Char)
  | [] => ([], none)
  | c :: cs =>
    if c = '=' then ([], some cs)
    else match splitEquals cs with
      | (name, value) => (c :: name, value)

/-- A dash alone is a plain argument. An equals sign attaches a value even if
nothing follows it. -/
def formOf (s : String) : Form :=
  match s.toList with
  | ['-', '-'] => .terminator
  | '-' :: '-' :: cs =>
    match splitEquals cs with
    | (name, value) => .long (String.ofList name) (value.map String.ofList)
  | ['-', c] => .short c none
  | '-' :: c :: '=' :: cs => .short c (some (String.ofList cs))
  | '-' :: c :: cs => .short c (some (String.ofList cs))
  | _ => .plain

def isPlain (s : String) : Bool :=
  match formOf s with
  | .plain => true
  | _ => false

/-- What an argument by itself asks for. -/
inductive Request where
  | invalid
  | finish
  | positional
  | give (name value : String)
  /-- The next argument is the value. -/
  | await (name : String)

/-- The request of an argument, given the options that are known. -/
def request (specs : List OptionSpec) (s : String) : Request :=
  match formOf s with
  | .terminator => .finish
  | .plain => .positional
  | .long name attached =>
    match specs.find? (·.name == name), attached with
    | none, _ => .invalid
    | some spec, none => if spec.takesValue then .await name else .give name ""
    | some spec, some v => if spec.takesValue then .give name v else .invalid
  | .short letter attached =>
    match specs.find? (·.letter == some letter), attached with
    | none, _ => .invalid
    | some spec, none => .await spec.name
    | some spec, some v => .give spec.name v

/-- Reads arguments up to the end or a subcommand, with the option that waits
for its value. Positional arguments are gathered last first. -/
def scan (specs : List OptionSpec) (subcommands : List String) :
    Option String → List String → Arguments → Option Arguments
  | none, [], a => some a
  | some _, [], _ => none
  | some name, v :: rest, a =>
    if isPlain v then (a.addOption? name v).bind (scan specs subcommands none rest) else none
  | none, s :: rest, a =>
    if subcommands.contains s then some { a with subcommand := some (s, rest) }
    else
      match request specs s with
      | .invalid => none
      | .finish => some (rest.foldl addPositional a)
      | .positional => scan specs subcommands none rest (a.addPositional s)
      | .give name v => (a.addOption? name v).bind (scan specs subcommands none rest)
      | .await name => scan specs subcommands (some name) rest a

/-- The arguments of a command; none if they are not well formed. -/
def parse? (specs : List OptionSpec) (subcommands : List String) (args : List String) :
    Option Arguments :=
  (scan specs subcommands none args {}).map fun a => { a with positional := a.positional.reverse }

/-- The value of an option by a reader; the default if it was not given, and
none if it cannot be read. -/
def read? (a : Arguments) (name : String) (default : α) (reader : String → Option α) : Option α :=
  match a.value? name with
  | none => some default
  | some s => reader s

/-- The value of an option by a reader, if it was given. -/
def readOptional? (a : Arguments) (name : String) (reader : String → Option α) :
    Option (Option α) :=
  match a.value? name with
  | none => some none
  | some s => (reader s).map some

end Arguments
end Command
end SparcIU
