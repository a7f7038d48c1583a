/-
# Outcomes of commands

What a command has to say, without saying it: what it prints, the file it
writes, and how it ends. Carrying it out is left to the program around it; if
the file cannot be written, the program ends with that error instead.

Key definitions: `Outcome`, `Outcome.ending`, `Ending.code`, `Files`.
-/

namespace SparcIU
namespace Command

/-- The contents of a file, or the text of the error in reading it. -/
abbrev Files := String → Except String ByteArray

inductive Outcome where
  /-- The arguments are not those of the command. -/
  | usage
  /-- The machine stopped at a word that is not implemented; nothing is printed
  or written. -/
  | unimplemented (report : String)
  /-- Prints `out`, then writes the file, then ends with an error or with a text
  for the error stream. -/
  | ended (out : String) (file : Option (String × String)) (verdict : Except String String)

/-- How a program ends. -/
inductive Ending where
  | usage
  | unimplemented (report : String)
  | failed (message : String)
  | finished (text : String)
  deriving DecidableEq, Repr

namespace Ending

/-- The exit code. -/
def code : Ending → UInt32
  | usage => 2
  | unimplemented _ => 134
  | failed _ => 1
  | finished _ => 0

/-- What stands on the error stream. -/
def message : Ending → String
  | usage => "error: these are not the arguments of this command\n"
  | unimplemented report => report ++ "\n"
  | failed message => "Error: " ++ message ++ "\n"
  | finished text => text

end Ending

namespace Outcome

/-- Ends with an error before anything is printed. -/
def failed (message : String) : Outcome := ended "" none (.error message)

/-- What is printed. -/
def out : Outcome → String
  | usage | unimplemented _ => ""
  | ended out _ _ => out

/-- The file that is written. -/
def file : Outcome → Option (String × String)
  | usage | unimplemented _ => none
  | ended _ file _ => file

/-- How the program ends, given the error in writing the file, if there is one; it comes
before the verdict of the command. -/
def ending (o : Outcome) (writeError : Option String) : Ending :=
  match o, writeError with
  | usage, _ => .usage
  | unimplemented report, _ => .unimplemented report
  | ended .., some e => .failed e
  | ended _ _ (.error e), none => .failed e
  | ended _ _ (.ok text), none => .finished text

end Outcome

/-- A path names something. -/
def readPath (s : String) : Option String := if s.isEmpty then none else some s

end Command
end SparcIU
