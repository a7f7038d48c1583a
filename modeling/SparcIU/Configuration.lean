/-
# Configurations

What is fixed when a processor is built: how many register windows it has, how
its traps are delivered, and the byte order of the files it comes from.

Key definitions: `Configuration`, `Configuration.validate`.
-/
import SparcIU.Word

namespace SparcIU

/-- How a pending trap is delivered: through the table at the trap base
register, or, for the window traps, by a routine of the processor's own. -/
inductive TrapMode where
  | vectored
  | internal
  deriving DecidableEq, Repr

def TrapMode.label : TrapMode → String
  | vectored => "vectored"
  | internal => "internal"

/-- The mode with a name. -/
def TrapMode.ofLabel? (s : String) : Option TrapMode :=
  if s = "vectored" then some vectored else if s = "internal" then some internal else none

structure Configuration where
  windows : UInt8 := 8
  trapMode : TrapMode := .vectored
  /-- The byte order of images and saved states. -/
  order : ByteOrder := .big
  deriving DecidableEq, Repr

/-- Why a configuration is refused. -/
inductive ConfigurationError where
  | windowCount (n : UInt8)
  deriving DecidableEq, Repr

def ConfigurationError.message : ConfigurationError → String
  | windowCount n => "window count " ++ n.toNat.repr ++ " outside 2..=32"

namespace Configuration

/-- The window number has five bits and the invalid mask one word, so there are
at most 32 windows; a window and its neighbour need at least two. -/
def validate (c : Configuration) : Except ConfigurationError Unit :=
  if 2 ≤ c.windows ∧ c.windows ≤ 32 then .ok () else .error (.windowCount c.windows)

/-- Eight globals, and sixteen registers for each window. -/
def registerCount (c : Configuration) : Nat := 8 + 16 * c.windows.toNat

end Configuration
end SparcIU
