/-
# Integer arithmetic

The results and flags of the arithmetic instructions, as functions of words.
Addition and the logical operations leave overflow and carry clear;
subtraction sets them. Products and quotients have 64 bits on the way: a product
is split over two words, a quotient that does not fit is clamped to the nearest
word.

Key definitions: `Arith.sub`, `Arith.product`, `Arith.quotient`,
`Arith.mulStep`.
-/
import SparcIU.Condition

namespace SparcIU
namespace Arith

/-- The sum, with overflow and carry clear. -/
def add (a b : Word) : Word × Icc := (a + b, .ofResult (a + b) false false)

/-- The difference. Overflow compares the widened difference with its own sign
extension; carry is the borrow out of the top bit. -/
def sub (a b : Word) : Word × Icc :=
  let wide := a.toInt32.toInt64 - b.toInt32.toInt64
  let res := wide.toUInt64.toUInt32
  let overflow := wide != res.toInt32.toInt64
  let borrowed := (a.toUInt64 ||| 0x100000000) - b.toUInt64
  let carry := borrowed &&& 0x100000000 == 0
  (res, .ofResult res overflow carry)

/-- A bitwise result, with overflow and carry clear. -/
def logical (r : Word) : Word × Icc := (r, .ofResult r false false)

/-- The arithmetic shift to the right by the low five bits of `n`. -/
def shiftRightSigned (a n : Word) : Word := (a.toInt32 >>> (n % 32).toInt32).toUInt32

/-! ### Products -/

def umul (a b : Word) : UInt64 := a.toUInt64 * b.toUInt64

def smul (a b : Word) : UInt64 := (a.toInt32.toInt64 * b.toInt32.toInt64).toUInt64

/-- High and low word of the product. -/
def product (signed : Bool) (a b : Word) : Word × Word :=
  let p := if signed then smul a b else umul a b
  ((p >>> 32).toUInt32, p.toUInt32)

/-! ### Quotients -/

/-- The double word with these two words. -/
def dividend (high low : Word) : UInt64 := high.toUInt64 <<< 32 ||| low.toUInt64

/-- The quotient of a double word by a word, clamped to a word; the flag says that
it was clamped. No quotient by zero. -/
def udiv (high low b : Word) : Option (Word × Bool) :=
  if b == 0 then none
  else
    let q := dividend high low / b.toUInt64
    if q ≤ 0xffffffff then some (q.toUInt32, false) else some (0xffffffff, true)

/-- The quotient, rounded toward zero. There is none by zero, and the least number
divided by -1 has none either. -/
def checkedDiv (a b : Int64) : Option Int64 :=
  if b == 0 || (a == Int64.minValue && b == -1) then none else some (a / b)

def sdiv (high low b : Word) : Option (Word × Bool) :=
  if b == 0 then none
  else
    match checkedDiv (dividend high low).toInt64 b.toInt32.toInt64 with
    | none => some (0x7fffffff, true)
    | some q =>
      if -0x80000000 ≤ q ∧ q ≤ 0x7fffffff then some (q.toUInt64.toUInt32, false)
      else if 0 < q then some (0x7fffffff, true)
      else some (0x80000000, true)

def quotient (signed : Bool) (high low b : Word) : Option (Word × Bool) :=
  if signed then sdiv high low b else udiv high low b

/-! ### The multiply step -/

/-- One step of a shift-and-add multiplication: the sum of `a` shifted right by
one under the sign `n != v` and, if the low bit of `y` is set, of `b`; then `y`
shifted right with the low bit of `a` on top. The carry of the sum goes into
the overflow flag. -/
def mulStep (f : Icc) (y a b : Word) : Word × Word × Icc :=
  let shifted := a / 2 + (if f.n != f.v then 0x80000000 else 0)
  let addend := if y % 2 == 1 then b else 0
  let sum := shifted + addend
  (sum, y / 2 + (a % 2) * 0x80000000, .ofResult sum (sum < shifted) false)

end Arith
end SparcIU
