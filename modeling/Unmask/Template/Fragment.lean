import Unmask.Template.Basic
import Unmask.Template.Offset

/-!
# Fragments

Reading a template takes two steps.  First the text is cut into fragments: runs of plain text,
escaped percent signs, and sites, which are a name and perhaps a modifier between two equal
marks.  What does not complete a site is plain text, so every text can be cut.  Then the offsets
of the sites are read, which is the only step that can fail.

## Algorithm

At a mark, the longest run of name characters is the name.  Behind a colon the body runs to the
next mark of the same kind on the same line.  A body is a slice after `~`, a replacement if it
holds `=`, and a fallback after `-`; another body makes no site.
-/

namespace Unmask.Template

/-- A stretch of text as the reader cuts it. -/
inductive Fragment where
  /-- Plain text. -/
  | plain (text : Text)
  /-- A percent sign written twice. -/
  | escape
  /-- A name, and behind a colon the body of a modifier, between two marks. -/
  | site (mark : Char) (name : Text) (body : Option Text)
deriving DecidableEq, Repr

/-- The characters that open a site in a dialect. -/
def isMark : Dialect → Char → Bool
  | .delayed, c => c == '%' || c == '!'
  | _, c => c == '%'

/-- The characters of a variable name on a command line. -/
def isNameChar (c : Char) : Bool :=
  !(Text.isSpace c || c == '%' || c == '!' || c == ':' || c == '"' || c == '&' || c == '|' ||
    c == '<' || c == '>' || c == '^')

/-- The characters of a key between percent signs in an INF file. -/
def isKeyChar (c : Char) : Bool :=
  c.isAlphanum || c == '_' || c == '.' || c == '-'

/-- A name is not empty; between percent signs it starts with no digit, `~` or `*`. -/
def isName (mark : Char) : Text → Bool
  | [] => false
  | c :: _ => mark == '!' || !(c.isDigit || c == '~' || c == '*')

/-- The bodies that modify a value: a slice, a fallback or a replacement. -/
def isModifierBody (body : Text) : Bool :=
  body.head? == some '~' || body.contains '=' || body.head? == some '-'

namespace Fragment

def toText : Fragment → Text
  | plain text => text
  | escape => "%%".toList
  | site mark name none => mark :: name ++ [mark]
  | site mark name (some body) => mark :: name ++ ':' :: body ++ [mark]

/-- The site of a command line that continues with `s` behind its first mark. -/
def site? (mark : Char) (s : Text) : Option Fragment :=
  let name := s.takeWhile isNameChar
  if isName mark name then
    match s.dropWhile isNameChar with
    | [] => none
    | c :: rest =>
      if c = mark then some (site mark name none)
      else if c = ':' then
        let body := rest.takeWhile fun c => c != mark && !Text.isBreak c
        if isModifierBody body && (rest.drop body.length).head? == some mark then
          some (site mark name (some body))
        else none
      else none
  else none

/-- The site of an INF file that continues with `s` behind its first percent sign. -/
def infSite? (s : Text) : Option Fragment :=
  let name := s.takeWhile isKeyChar
  if !name.isEmpty && (s.drop name.length).head? == some '%' then some (site '%' name none)
  else none

/-- The fragment at the head of the text `c :: s`. -/
def first (d : Dialect) (c : Char) (s : Text) : Fragment :=
  if isMark d c then
    match d with
    | .inf => if s.head? == some '%' then escape else (infSite? s).getD (plain [c])
    | _ => (site? c s).getD (plain [c])
  else plain (c :: s.takeWhile fun c => !isMark d c)

def cut (d : Dialect) : Text → List Fragment
  | [] => []
  | c :: s =>
    let fragment := first d c s
    fragment :: cut d (s.drop (fragment.toText.length - 1))
termination_by s => s.length
decreasing_by simp only [List.length_drop, List.length_cons]; omega

/--
The modifier of a body.  Both offsets of a slice are read; where one of them is no number the
value is taken whole.
-/
def readModifier (body : Text) : Except Fault Modifier :=
  match body with
  | '~' :: offsets => do
    let start ← Offset.read (offsets.takeWhile (· != ','))
    match offsets.dropWhile (· != ',') with
    | [] => return (start.map (.slice · none)).getD .whole
    | _ :: rest =>
      let length ← Offset.read rest
      match start, length with
      | some start, some length => return .slice start (some length)
      | _, _ => return .whole
  | _ =>
    match body.dropWhile (· != '=') with
    | _ :: replacement => .ok (.replace (body.takeWhile (· != '=')) replacement)
    | [] => .ok (.fallback (body.drop 1))

def read (fragment : Fragment) : Except Fault Piece :=
  match fragment with
  | plain text => .ok ⟨text, .literal text⟩
  | escape => .ok ⟨fragment.toText, .literal ['%']⟩
  | site _ name none => .ok ⟨fragment.toText, .reference ⟨name, .whole⟩⟩
  | site _ name (some body) => do
    let modifier ← readModifier body
    return ⟨fragment.toText, .reference ⟨name, modifier⟩⟩

end Fragment

/-- Reads a text as a template.  It fails only where an offset overflows. -/
def read (d : Dialect) (s : Text) : Except Fault Template :=
  (Fragment.cut d s).mapM Fragment.read

end Unmask.Template
