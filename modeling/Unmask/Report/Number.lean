import Unmask.Text.Numeral

/-!
# Numbers of reports

A report is refused if it holds a number too large for a double.  A number is read as an integer
of at most 64 bits and a power of ten: once another digit would not fit, the digits that follow
only count towards the power in front of the point and are dropped behind it.

## Algorithm

The integer and the power of ten are each rounded to 53 bits, and so is their product; the
number is too large if that reaches 2^1024.
-/

namespace Unmask.Report

/-- An integer and a power of ten. -/
structure Scaled where
  significand : Nat
  exponent : Int
deriving DecidableEq, Repr

/-- The nearest number of at most 53 bits and a power of two; a tie goes to the even one. -/
def round53 (n : Nat) : Nat :=
  let unit := Nat.pow 2 (n.log2 - 52)
  let quotient := n / unit
  let remainder := n % unit
  if unit < 2 * remainder ∨ (unit = 2 * remainder ∧ quotient % 2 = 1) then (quotient + 1) * unit
  else quotient * unit

namespace Scaled

/-- Whether a number lies within the range of a double. -/
def isFinite (x : Scaled) : Bool :=
  if x.significand = 0 ∨ x.exponent < 0 then true
  else if 308 < x.exponent then false
  else
    let power := Nat.pow 10 x.exponent.toNat
    round53 (round53 x.significand * round53 power) < Nat.pow 2 1024

/-- Whether a significand of 64 bits has room for one more digit. -/
def fits (significand digit : Nat) : Bool :=
  significand * 10 + digit ≤ 0xFFFFFFFFFFFFFFFF

/-- Adds the digits in front of the point; those that do not fit only count. -/
def addIntegerDigits : (full : Bool) → Text → Scaled → Scaled
  | _, [], x => x
  | full, c :: s, x =>
    let digit := c.toNat - 48
    if !full && fits x.significand digit then
      addIntegerDigits false s { x with significand := x.significand * 10 + digit }
    else addIntegerDigits true s { x with exponent := x.exponent + 1 }

/-- Adds the digits behind the point up to the first that does not fit. -/
def addFractionDigits : Text → Scaled → Scaled
  | [], x => x
  | c :: s, x =>
    let digit := c.toNat - 48
    if fits x.significand digit then
      addFractionDigits s ⟨x.significand * 10 + digit, x.exponent - 1⟩
    else x

end Scaled

def greatestExponent : Nat := 0x7FFFFFFF

/-- Takes the sign off an exponent; `true` stands for a minus sign. -/
def splitExponentSign : Text → Bool × Text
  | '-' :: s => (true, s)
  | '+' :: s => (false, s)
  | s => (false, s)

/-- The exponent behind `e` at the head of a text: its sign and digits, and what follows. -/
def readExponent? : Text → Option ((Bool × Text) × Text)
  | [] => none
  | c :: s =>
    if c = 'e' ∨ c = 'E' then
      let (negative, s) := splitExponentSign s
      let digits := s.takeWhile Char.isDigit
      if digits.isEmpty then none else some ((negative, digits), s.drop digits.length)
    else none

/-- Adds an exponent to a number, unless the number becomes too large. -/
def scale? (negative : Bool) (digits : Text) (x : Scaled) : Option Scaled :=
  let n := ((Text.readNat? 10 digits).getD 0)
  if greatestExponent < n then
    if x.significand = 0 ∨ negative then some ⟨0, 0⟩ else none
  else some { x with exponent := if negative then x.exponent - n else x.exponent + n }

/-- Whether a text goes on with the mark of an exponent. -/
def exponentFollows (s : Text) : Bool :=
  s.head?.any fun c => c == 'e' || c == 'E'

/-- What follows a number without a sign at the head of a text. -/
def dropNumber? (s : Text) : Option Text := do
  let digits := s.takeWhile Char.isDigit
  let s := s.drop digits.length
  if digits.isEmpty || (digits.head? == some '0' && 1 < digits.length) then none
  let x := Scaled.addIntegerDigits false digits ⟨0, 0⟩
  let (x, s) ←
    match s with
    | '.' :: s =>
      let fraction := s.takeWhile Char.isDigit
      if fraction.isEmpty then none
      else some (Scaled.addFractionDigits fraction x, s.drop fraction.length)
    | s => some (x, s)
  if exponentFollows s then
    let ((negative, digits), s) ← readExponent? s
    let x ← scale? negative digits x
    if x.isFinite then some s else none
  else if x.isFinite then some s
  else none

end Unmask.Report
