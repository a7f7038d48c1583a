/-
# Condition codes

Four flags describe the result of an arithmetic instruction: negative, zero,
overflow and carry. A branch or a conditional trap tests one of sixteen
conditions on them.

Key definitions: `Icc`, `Icc.ofResult`, `Cond`, `Cond.holds`.
-/
import SparcIU.Word

namespace SparcIU

/-- The integer condition codes. -/
structure Icc where
  n : Bool
  z : Bool
  v : Bool
  c : Bool
  deriving DecidableEq, Repr

/-- Negative and zero follow from the result; overflow and carry are the
operation's own. -/
def Icc.ofResult (result : Word) (overflow carry : Bool) : Icc :=
  ⟨0x80000000 ≤ result, result == 0, overflow, carry⟩

/-- The condition field of a branch or a conditional trap. -/
inductive Cond where
  | never
  | equal
  | lessOrEqual
  | less
  | lessOrEqualUnsigned
  | carrySet
  | negative
  | overflowSet
  | always
  | notEqual
  | greater
  | greaterOrEqual
  | greaterUnsigned
  | carryClear
  | positive
  | overflowClear
  deriving DecidableEq, Repr

namespace Cond

/-- The condition a four-bit field names; higher bits are ignored. -/
def ofField (n : Nat) : Cond :=
  match n % 16 with
  | 0 => never
  | 1 => equal
  | 2 => lessOrEqual
  | 3 => less
  | 4 => lessOrEqualUnsigned
  | 5 => carrySet
  | 6 => negative
  | 7 => overflowSet
  | 8 => always
  | 9 => notEqual
  | 10 => greater
  | 11 => greaterOrEqual
  | 12 => greaterUnsigned
  | 13 => carryClear
  | 14 => positive
  | _ => overflowClear

/-- The field that names the condition. -/
def code : Cond → Nat
  | never => 0
  | equal => 1
  | lessOrEqual => 2
  | less => 3
  | lessOrEqualUnsigned => 4
  | carrySet => 5
  | negative => 6
  | overflowSet => 7
  | always => 8
  | notEqual => 9
  | greater => 10
  | greaterOrEqual => 11
  | greaterUnsigned => 12
  | carryClear => 13
  | positive => 14
  | overflowClear => 15

/-- Whether the flags satisfy the condition. -/
def holds (cond : Cond) (f : Icc) : Bool :=
  match cond with
  | never => false
  | equal => f.z
  | lessOrEqual => f.z || (f.n != f.v)
  | less => f.n != f.v
  | lessOrEqualUnsigned => f.c || f.z
  | carrySet => f.c
  | negative => f.n
  | overflowSet => f.v
  | always => true
  | notEqual => !f.z
  | greater => !(f.z || (f.n != f.v))
  | greaterOrEqual => !(f.n != f.v)
  | greaterUnsigned => !(f.c || f.z)
  | carryClear => !f.c
  | positive => !f.n
  | overflowClear => !f.v

/-- The suffix of the branch and trap mnemonics. -/
def mnemonic : Cond → String
  | never => "n"
  | equal => "e"
  | lessOrEqual => "le"
  | less => "l"
  | lessOrEqualUnsigned => "leu"
  | carrySet => "cs"
  | negative => "neg"
  | overflowSet => "vs"
  | always => "a"
  | notEqual => "ne"
  | greater => "g"
  | greaterOrEqual => "ge"
  | greaterUnsigned => "gu"
  | carryClear => "cc"
  | positive => "pos"
  | overflowClear => "vc"

end Cond
end SparcIU
