import Unmask.Encoding.Utf8

/-!
# UTF-16

A character is one unit of 16 bits, or a high and a low surrogate.  A unit is two bytes in one
of two orders.  A surrogate that stands alone is read as U+FFFD, and an odd byte at the end is
left out.
-/

namespace Unmask.Encoding.Utf16

/-- The order of the two bytes of a unit. -/
inductive ByteOrder where
  | littleEndian
  | bigEndian
deriving DecidableEq, Repr

/-! ## Writing -/

def unitsOfChar (c : Char) : List Nat :=
  let n := c.toNat
  if n < 0x10000 then [n]
  else [0xD800 + (n - 0x10000) / 0x400, 0xDC00 + (n - 0x10000) % 0x400]

def bytesOfUnit (order : ByteOrder) (unit : Nat) : Bytes :=
  match order with
  | .littleEndian => [UInt8.ofNat (unit % 256), UInt8.ofNat (unit / 256)]
  | .bigEndian => [UInt8.ofNat (unit / 256), UInt8.ofNat (unit % 256)]

def encode (order : ByteOrder) (s : Text) : Bytes :=
  (s.flatMap unitsOfChar).flatMap (bytesOfUnit order)

/-! ## Reading -/

def units (order : ByteOrder) : Bytes → List Nat
  | a :: b :: s =>
    let unit :=
      match order with
      | .littleEndian => b.toNat * 256 + a.toNat
      | .bigEndian => a.toNat * 256 + b.toNat
    unit :: units order s
  | _ => []

/-- Whether a unit is the first of two. -/
def isHigh (unit : Nat) : Bool :=
  0xD800 ≤ unit && unit < 0xDC00

/-- Whether a unit is the second of two. -/
def isLow (unit : Nat) : Bool :=
  0xDC00 ≤ unit && unit < 0xE000

/-- The characters of a list of units, U+FFFD for a surrogate that stands alone. -/
def charsOfUnits : List Nat → Text
  | [] => []
  | [u] => [if isHigh u || isLow u then replacement else Char.ofNat u]
  | u :: v :: s =>
    if isHigh u && isLow v then
      Char.ofNat (0x10000 + (u - 0xD800) * 0x400 + (v - 0xDC00)) :: charsOfUnits s
    else (if isHigh u || isLow u then replacement else Char.ofNat u) :: charsOfUnits (v :: s)

def decode (order : ByteOrder) (s : Bytes) : Text :=
  charsOfUnits (units order s)

end Unmask.Encoding.Utf16
