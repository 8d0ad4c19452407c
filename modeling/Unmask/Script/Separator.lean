import Unmask.Text.Basic

/-!
# Separators

What stands between the statements of a script, and where a statement ends.  A double quote
opens quoted text, which runs to the next quote or to the end of the line; outside of it a caret
makes the next character ordinary, and any of `&`, `|` and the line breaks ends the statement.
-/

namespace Unmask

/-- What stands between two statements. -/
inductive Separator where
  /-- A line break. -/
  | newline
  /-- One ampersand: the second statement follows in any case. -/
  | sequence
  /-- Two ampersands: the second follows a success. -/
  | and
  /-- Two bars: the second follows a failure. -/
  | or
  /-- One bar: the second reads what the first writes. -/
  | pipe
deriving DecidableEq, Repr

namespace Separator

/-- How a separator is written between two statements of the output. -/
def written : Separator → Text
  | newline => "\n".toList
  | sequence => " & ".toList
  | and => " && ".toList
  | or => " || ".toList
  | pipe => " | ".toList

def isStart (c : Char) : Bool :=
  c == '&' || c == '|' || Text.isBreak c

/--
The separator that starts with `c` and goes on with `s`, and how many characters of `s` it
takes.
-/
def first? (c : Char) (s : Text) : Option (Separator × Nat) :=
  match c with
  | '&' => if s.head? = some '&' then some (and, 1) else some (sequence, 0)
  | '|' => if s.head? = some '|' then some (or, 1) else some (pipe, 0)
  | '\r' => if s.head? = some '\n' then some (newline, 1) else some (newline, 0)
  | '\n' => some (newline, 0)
  | _ => none

end Separator

namespace Script

/--
The start of a text up to the end of the statement.  With `quoted` the text goes on inside
quoted text.
-/
def takeBody : (quoted : Bool) → Text → Text
  | _, [] => []
  | true, c :: s =>
    if Text.isBreak c then [] else c :: takeBody (c != '"') s
  | false, '^' :: c :: s => '^' :: c :: takeBody false s
  | false, c :: s =>
    if Separator.isStart c then [] else c :: takeBody (c == '"') s

end Script

end Unmask
