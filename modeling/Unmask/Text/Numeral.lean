import Unmask.Text.Basic

/-!
# Numerals

Reading and writing natural numbers and integers as digits.  Reading takes digits only: signs,
bounds and the meaning of a leading zero belong to the format that is read.
-/

namespace Unmask.Text

/-- The value of an ASCII digit or letter as a digit in base `base`. -/
def digitValue? (base : Nat) (c : Char) : Option Nat :=
  let n := c.toNat
  let value? :=
    if 48 ≤ n ∧ n ≤ 57 then some (n - 48)
    else if 97 ≤ n ∧ n ≤ 122 then some (n - 87)
    else if 65 ≤ n ∧ n ≤ 90 then some (n - 55)
    else none
  value?.filter (· < base)

/-- Reads the digits that follow an already read number `n`. -/
def readDigits? (base : Nat) : (n : Nat) → Text → Option Nat
  | n, [] => some n
  | n, c :: s =>
    match digitValue? base c with
    | some d => readDigits? base (n * base + d) s
    | none => none

/-- The number written by one or more digits. -/
def readNat? (base : Nat) : Text → Option Nat
  | [] => none
  | c :: s => readDigits? base 0 (c :: s)

def ofNat (n : Nat) : Text :=
  if n < 10 then [Nat.digitChar n] else ofNat (n / 10) ++ [Nat.digitChar (n % 10)]

/-- The decimal digits of an integer, after `-` if it is negative. -/
def ofInt : Int → Text
  | .ofNat n => ofNat n
  | .negSucc n => '-' :: ofNat (n + 1)

end Unmask.Text
