/-
# The programs

`run` runs an image, `disasm` lists one. This module reads the files, and prints and
writes what the command decided.
-/
import SparcIU.Command.RunImage
import SparcIU.Command.ListImage

namespace SparcIU
namespace Program

/-- The text of an error of the operating system. -/
def errorText (e : IO.Error) : String :=
  match e with
  | .noFileOrDirectory _ code _ =>
    "No such file or directory (os error " ++ code.toNat.repr ++ ")"
  | .permissionDenied _ code _ => "Permission denied (os error " ++ code.toNat.repr ++ ")"
  | .inappropriateType _ code _ => "Is a directory (os error " ++ code.toNat.repr ++ ")"
  | e => toString e

/-- Reads the named files. -/
def readFiles : List String → IO (List (String × Except String ByteArray))
  | [] => pure []
  | name :: names => do
    let content ← try
        let bytes ← IO.FS.readBinFile name
        pure (.ok bytes)
      catch e => pure (.error (errorText e))
    let others ← readFiles names
    return (name, content) :: others

/-- The files that were read. -/
def lookupIn (contents : List (String × Except String ByteArray)) : Command.Files := fun name =>
  (contents.lookup name).getD (.error "No such file or directory (os error 2)")

/-- Writes the file a command asks for; the result is the error, if there is
one. -/
def writeFile : Option (String × String) → IO (Option String)
  | none => pure none
  | some (path, content) => do
    try
      IO.FS.writeFile path content
      pure none
    catch e => pure (some (errorText e))

/-- Does what a command decided. -/
def carryOut (o : Command.Outcome) : IO UInt32 := do
  IO.print o.out
  let ending := o.ending (← writeFile o.file)
  IO.eprint ending.message
  return ending.code

end Program
end SparcIU

open SparcIU SparcIU.Program

def main (args : List String) : IO UInt32 := do
  match args with
  | "run" :: args =>
    match Command.RunOptions.parse? args with
    | none => carryOut .usage
    | some o => do
      let contents ← readFiles o.inputs
      carryOut (Command.runImage o (lookupIn contents))
  | "disasm" :: args =>
    match Command.ListOptions.parse? args with
    | none => carryOut .usage
    | some o => do
      let contents ← readFiles [o.input]
      carryOut (Command.listImage o (lookupIn contents))
  | _ => carryOut .usage
