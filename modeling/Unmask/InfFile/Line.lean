import Unmask.Text.Basic

/-!
# Lines of INF files

An INF file is a list of lines.  A line in brackets opens a section, a key with an equals sign
behind it is an entry, and any other line is text.  A line of a strings section stands below the
header of such a section, or is that header itself.
-/

namespace Unmask.InfFile

inductive LineForm where
  /-- The header of a section. -/
  | header (name : Text)
  /-- A key and its value, as it is written. -/
  | entry (key value : Text)
  /-- Anything else. -/
  | text
deriving DecidableEq, Repr

/-- A line beside its form. -/
structure Line where
  text : Text
  form : LineForm
deriving DecidableEq, Repr

namespace LineForm

/-- The characters of the key of an entry. -/
def isKeyChar (c : Char) : Bool :=
  c.isAlphanum || c == '_'

def header? (line : Text) : Option LineForm :=
  match line.dropWhile Text.isBlank with
  | '[' :: s =>
    let name := s.takeWhile (· != ']')
    if name.length < s.length then some (header (Text.trim name)) else none
  | _ => none

def entry? (line : Text) : Option LineForm :=
  let s := line.dropWhile Text.isBlank
  let key := s.takeWhile isKeyChar
  if key.isEmpty then none
  else
    match (s.drop key.length).dropWhile Text.isBlank with
    | '=' :: value => some (entry key (value.dropWhile Text.isBlank))
    | _ => none

def read (line : Text) : LineForm :=
  (header? line <|> entry? line).getD text

/-- Whether a section of this name defines strings. -/
def isStringsName (name : Text) : Bool :=
  let name := Text.asciiLower name
  name == "strings".toList || "strings.".toList.isPrefixOf name

end LineForm

/-- A line beside the form that is read off it. -/
def Line.read (line : Text) : Line :=
  ⟨line, LineForm.read line⟩

@[simp]
theorem Line.form_read (line : Text) : (Line.read line).form = LineForm.read line :=
  rfl

def readLines (s : Text) : List Line :=
  (Text.lines s).map Line.read

/-- A value without the white space and one pair of quotes around it. -/
def bareValue (value : Text) : Text :=
  let value := Text.trim value
  (Text.unquote? '"' value <|> Text.unquote? '\'' value).getD value

end Unmask.InfFile
