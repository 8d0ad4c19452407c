import Unmask.Script.Separator

/-!
# Transcripts

The statements that are kept are written one after the other.  Between two of them stands what
separated them in the script: a line break if there was one, or else the last separator.

Main statement: a line that fits is never broken (`wrapLine_of_length_le`).
-/

namespace Unmask.Script

/-- What has been written, and the separator to write in front of the next statement. -/
structure Transcript where
  output : Text
  pending : Option Separator
deriving DecidableEq, Repr

namespace Transcript

def empty : Transcript :=
  ⟨[], none⟩

def separate (separator : Separator) (t : Transcript) : Transcript :=
  if t.pending = some .newline then t else { t with pending := some separator }

theorem output_separate (separator : Separator) (t : Transcript) :
    (t.separate separator).output = t.output := by
  unfold separate
  split <;> rfl

/-- Writes a statement without the white space around it; one of white space alone is left out. -/
def write (statement : Text) (t : Transcript) : Transcript :=
  match Text.trim statement, t.pending with
  | [], _ => t
  | c :: s, some separator =>
    let joiner := if t.output.isEmpty then [] else separator.written
    ⟨t.output ++ joiner ++ c :: s, none⟩
  | c :: s, none => ⟨t.output ++ c :: s, none⟩

end Transcript

/-! ## Long lines -/

/-- Where a long line may be broken. -/
def breakMark : Text :=
  " && ".toList

/-- The parts of a broken line behind the first: they are indented, and all but the last go on. -/
def continueLine : List Text → List Text
  | [] => []
  | [part] => ["  ".toList ++ part]
  | part :: next :: parts => ("  ".toList ++ part ++ " &&".toList) :: continueLine (next :: parts)

/-- Breaks a line of more than `width` characters behind every ` && `. -/
def wrapLine (width : Nat) (line : Text) : List Text :=
  if line.length ≤ width then [line]
  else
    match Text.splitOn breakMark line with
    | part :: next :: parts => (part ++ " &&".toList) :: continueLine (next :: parts)
    | _ => [line]

/-- Breaks the long lines of a text. -/
def wrap (width : Nat) (s : Text) : Text :=
  Text.join ['\n'] ((Text.fields (· == '\n') s).flatMap (wrapLine width))

theorem wrapLine_of_length_le {width : Nat} {line : Text} (h : line.length ≤ width) :
    wrapLine width line = [line] := by
  rw [wrapLine, if_pos h]

end Unmask.Script
