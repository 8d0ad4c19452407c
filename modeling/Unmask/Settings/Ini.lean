import Unmask.Text.ByteLength
import Unmask.Text.LetterCase
import Unmask.Text.Numeral

/-!
# INI files

Sections of keys and values, one to a line.  Names of sections and keys are lower case however
they are written.  A section may be continued later, and of several values of a key the last
counts; a key without a value takes an earlier value away.

## Algorithm

A line is trimmed, dropped if it starts as a comment, and cut where a comment starts.  What is
left is the header of a section if it starts with a bracket, or else a key that ends at the
first `=` or `:`.
-/

namespace Unmask

/-- Why a text is no INI file; lines are counted from one, columns from zero. -/
inductive IniError where
  /-- A header has no closing bracket. -/
  | unclosedHeader (line : Nat)
  /-- Nothing stands in front of the delimiter in a column. -/
  | emptyKey (line column : Nat)
deriving DecidableEq, Repr

def IniError.message : IniError → Text
  | unclosedHeader line =>
    "line ".toList ++ Text.ofNat line ++
      ": Found opening bracket for section name but no closing bracket".toList
  | emptyKey line column =>
    "line ".toList ++ Text.ofNat line ++ ':' :: Text.ofNat column ++ ": Key cannot be empty".toList

/-- A key as it stands in a section. -/
structure IniEntry where
  header : Text
  key : Text
  value : Option Text
deriving DecidableEq, Repr

/-- The entries of an INI file in order. -/
abbrev Ini := List IniEntry

namespace Ini

def isComment (c : Char) : Bool :=
  c == ';' || c == '#'

def isDelimiter (c : Char) : Bool :=
  c == '=' || c == ':'

/-- A line without its comment and the white space around it. -/
def content (line : Text) : Text :=
  Text.trim ((Text.trim line).takeWhile fun c => !isComment c)

/-- The name of a section: all between the opening bracket and the last closing one. -/
def headerName? (s : Text) : Option Text :=
  match s.reverse.dropWhile (· != ']') with
  | [] => none
  | _ :: name => some (Text.lowercase (Text.trim name.reverse))

def readEntry (header : Text) (number : Nat) (line : Text) : Except IniError IniEntry :=
  let before := line.takeWhile fun c => !isDelimiter c
  let key := Text.lowercase (Text.trim before)
  match line.drop before.length with
  | [] => .ok ⟨header, key, none⟩
  | _ :: value =>
    if key.isEmpty then .error (.emptyKey number (Text.byteLength before))
    else .ok ⟨header, key, some (Text.trim value)⟩

/--
The entries of lines that stand in a section, the first of them the `number`-th line of a file.
-/
def readLines : (header : Text) → (number : Nat) → List Text → Except IniError Ini
  | _, _, [] => .ok []
  | header, number, line :: lines =>
    match content line with
    | [] => readLines header (number + 1) lines
    | '[' :: s =>
      match headerName? s with
      | none => .error (.unclosedHeader number)
      | some header => readLines header (number + 1) lines
    | c :: s => do
      let entry ← readEntry header number (c :: s)
      return entry :: (← readLines header (number + 1) lines)

def read (s : Text) : Except IniError Ini :=
  readLines "default".toList 1 (Text.fields (· == '\n') s)

def get? (ini : Ini) (header key : String) : Option Text :=
  match (ini.filter fun e => e.header = header.toList ∧ e.key = key.toList).getLast? with
  | none => none
  | some e => e.value

end Ini

end Unmask
