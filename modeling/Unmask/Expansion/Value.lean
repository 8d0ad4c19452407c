import Unmask.Template.Basic
import Unmask.Text.LetterCase

/-!
# Modified values

What the modifier of a reference makes of the value of its variable.  A slice counts characters;
a replacement finds its search text regardless of letter case.
-/

namespace Unmask

/-- A value, and whether some reference on the way to it led back to itself. -/
structure Resolution where
  value : Text
  cyclic : Bool
deriving DecidableEq, Repr

namespace Expansion

/--
The characters from `start` on.  A negative `start` counts from the end.  A negative `length`
leaves that many characters out at the end, and without one the slice runs to the end.
-/
def slice (start : Int) (length : Option Int) (s : Text) : Text :=
  let n : Int := s.length
  let first := if start < 0 then max 0 (n + start) else min start n
  let stop :=
    match length with
    | none => n
    | some l => if l < 0 then n + l else min n (first + l)
  (s.take stop.toNat).drop first.toNat

/--
Puts `replacement` for every occurrence of `search`; with a leading `*`, for all up to the end
of the first occurrence.  An empty search changes nothing.
-/
def replace (search replacement s : Text) : Text :=
  match search with
  | [] => s
  | '*' :: [] => s
  | '*' :: search =>
    match Text.afterFirst? Text.sameFolded search s with
    | some rest => replacement ++ rest
    | none => s
  | search => Text.replaceAll Text.sameFolded search replacement s

end Expansion

/-- What the modifier makes of the value of a defined variable. -/
def Modifier.apply (m : Modifier) (r : Resolution) : Resolution :=
  match m with
  | .whole => r
  | .slice start length => { r with value := Expansion.slice start length r.value }
  | .fallback text => if r.value.isEmpty then { r with value := text } else r
  | .replace search replacement => { r with value := Expansion.replace search replacement r.value }

end Unmask
