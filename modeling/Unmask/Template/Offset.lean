import Unmask.Fault
import Unmask.Text.Numeral

/-!
# Offsets

The two numbers of a slice are written in decimal, in hexadecimal after `0x`, or in octal after
a leading zero, with an optional sign, and lie between -2^63 and 2^63 - 1.  The digits after a
leading zero may carry a sign of their own.

Negating -2^63 leaves that range, which is a fault.
-/

namespace Unmask

namespace Template.Offset

def least : Int := -0x8000000000000000

def greatest : Int := 0x7FFFFFFFFFFFFFFF

/-- Keeps an integer that is an offset. -/
def inRange? (i : Int) : Option Int :=
  if least ≤ i ∧ i ≤ greatest then some i else none

/-- Reads digits in base `base` behind an optional sign. -/
def readSigned? (base : Nat) : Text → Option Int
  | '-' :: s => (Text.readNat? base s).bind fun n => inRange? (-n)
  | '+' :: s => (Text.readNat? base s).bind fun n => inRange? n
  | s => (Text.readNat? base s).bind fun n => inRange? n

/-- Reads a number that starts with a digit: `0x` opens hexadecimal, another leading zero octal. -/
def readUnsigned? : Text → Option Int
  | '0' :: 'x' :: s => (Text.readNat? 16 s).bind fun n => inRange? n
  | '0' :: 'X' :: s => (Text.readNat? 16 s).bind fun n => inRange? n
  | '0' :: c :: s => readSigned? 8 (c :: s)
  | s => (Text.readNat? 10 s).bind fun n => inRange? n

/-- Takes an optional sign off; `true` stands for a minus sign. -/
def splitSign : Text → Bool × Text
  | '-' :: s => (true, s)
  | '+' :: s => (false, s)
  | s => (false, s)

/-- Reads an offset; a text that is none gives `none`. -/
def read (s : Text) : Except Fault (Option Int) :=
  let (negative, digits) := splitSign (Text.trim s)
  if ¬ (digits.head?.any Char.isDigit) then .ok none
  else
    match readUnsigned? digits with
    | none => .ok none
    | some i =>
      if negative then
        if i = least then .error .offsetOverflow else .ok (some (-i))
      else .ok (some i)

end Template.Offset

end Unmask
