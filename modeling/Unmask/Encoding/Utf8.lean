import Unmask.Text.Basic

/-!
# UTF-8

A character is one to four bytes.  Reading goes from left to right: the bytes that start a
character but do not complete it are one error, and so is a byte that starts none.  An error is
read as U+FFFD, or refuses the whole sequence.
-/

namespace Unmask

/-- A sequence of bytes, the content of a file. -/
abbrev Bytes := List UInt8

namespace Encoding

/-- What stands for characters that cannot be read. -/
def replacement : Char := '\uFFFD'

namespace Utf8

/-! ## Writing -/

/-- The byte behind the first that carries the six bits of `n` above `scale`. -/
def tailByte (n scale : Nat) : UInt8 :=
  UInt8.ofNat (0x80 + n / scale % 64)

def encodeChar (c : Char) : Bytes :=
  let n := c.toNat
  if n < 0x80 then [UInt8.ofNat n]
  else if n < 0x800 then [UInt8.ofNat (0xC0 + n / 64), tailByte n 1]
  else if n < 0x10000 then [UInt8.ofNat (0xE0 + n / 4096), tailByte n 64, tailByte n 1]
  else [UInt8.ofNat (0xF0 + n / 262144), tailByte n 4096, tailByte n 64, tailByte n 1]

def encode (s : Text) : Bytes :=
  s.flatMap encodeChar

def bytes (s : String) : Bytes :=
  encode s.toList

/-! ## Reading -/

/-- The bytes behind the first of a character, each as the least and the greatest that it may be. -/
def tailRanges? (b : UInt8) : Option (List (UInt8 × UInt8)) :=
  let any := (0x80, 0xBF)
  if b < 0x80 then some []
  else if b < 0xC2 then none
  else if b < 0xE0 then some [any]
  else if b = 0xE0 then some [(0xA0, 0xBF), any]
  else if b = 0xED then some [(0x80, 0x9F), any]
  else if b < 0xF0 then some [any, any]
  else if b = 0xF0 then some [(0x90, 0xBF), any, any]
  else if b < 0xF4 then some [any, any, any]
  else if b = 0xF4 then some [(0x80, 0x8F), any, any]
  else none

/-- What the first byte of a character adds to its number. -/
def leadBits (b : UInt8) : Nat :=
  if b < 0x80 then b.toNat
  else if b < 0xE0 then b.toNat - 0xC0
  else if b < 0xF0 then b.toNat - 0xE0
  else b.toNat - 0xF0

/-- The bytes at the head of `s` that lie in the ranges, one for each as long as they do. -/
def takeTail : List (UInt8 × UInt8) → Bytes → Bytes
  | (least, greatest) :: ranges, b :: s =>
    if least ≤ b ∧ b ≤ greatest then b :: takeTail ranges s else []
  | _, _ => []

/--
The character that starts with the byte `b`, unless it is an error, and how many bytes of `s` it
takes.
-/
def first (b : UInt8) (s : Bytes) : Option Char × Nat :=
  match tailRanges? b with
  | none => (none, 0)
  | some ranges =>
    let tail := takeTail ranges s
    if tail.length = ranges.length then
      let number := tail.foldl (fun n b => n * 64 + (b.toNat - 0x80)) (leadBits b)
      (some (Char.ofNat number), tail.length)
    else (none, tail.length)

/-- The characters of a byte sequence, `none` for an error. -/
def chars : Bytes → List (Option Char)
  | [] => []
  | b :: s =>
    let (c, width) := first b s
    c :: chars (s.drop width)
termination_by s => s.length
decreasing_by simp only [List.length_drop, List.length_cons]; omega

/-- Reads bytes as a text, errors as U+FFFD. -/
def decode (s : Bytes) : Text :=
  (chars s).map (·.getD replacement)

/-- Reads bytes as a text; an error refuses them. -/
def decode? (s : Bytes) : Option Text :=
  (chars s).mapM id

end Utf8

end Encoding

end Unmask
