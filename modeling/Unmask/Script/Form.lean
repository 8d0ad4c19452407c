import Unmask.Script.Lead
import Unmask.Script.Separator

/-!
# Forms of statements

How a statement is written: an assignment, a loop over items, or anything else, which is a command.
What is no complete form of the first two is a command, so every text starts with a statement.

## Algorithm

`readForm` reads the lead and looks for a keyword behind it.  It gives the form of the statement and
the text behind it, which starts with a separator or is empty.
-/

namespace Unmask.Script

/-- A loop over items, as it is written. -/
structure Loop where
  /-- Whether the loop stands behind an opening parenthesis. -/
  grouped : Bool
  /-- One or two percent signs. -/
  marks : Text
  letter : Char
  items : Text
  body : Text
deriving DecidableEq, Repr

/-- The form of a statement, as it is written. -/
inductive Form where
  /-- `set NAME=VALUE` or `set "NAME=VALUE"`. -/
  | assignment (name value : Text)
  /-- `for %g in (ITEMS) do BODY`. -/
  | loop (loop : Loop)
  /-- Anything else. -/
  | command
deriving DecidableEq, Repr

/-! ## Reading -/

def dropKeyword? (keyword : String) (s : Text) : Option Text :=
  Text.dropMatch? (fun a b => a.toLower == b.toLower) keyword.toList s

/-- What follows one or more blanks at the head of a text. -/
def dropBlanks? (s : Text) : Option Text :=
  if s.head?.any Text.isBlank then some (s.dropWhile Text.isBlank) else none

/-- The characters of the name in an assignment. -/
def isTargetChar (c : Char) : Bool :=
  !(c == '=' || c == '"' || Separator.isStart c)

/-- The name and what follows the equals sign; a name does not start with a slash or a blank. -/
def readTarget? (s : Text) : Option (Text × Text) :=
  let name := s.takeWhile isTargetChar
  if name.head?.any fun c => c != '/' && !Text.isBlank c then
    match s.drop name.length with
    | '=' :: rest => some (name, rest)
    | _ => none
  else none

/-- Whether the quote in front of `s` closes a value: no other quote follows in the statement. -/
def closes (s : Text) : Bool :=
  ((s.dropWhile fun c => c != '"' && !Separator.isStart c).head?.all (· != '"'))

/-- The text up to the first closing quote, and what follows that. -/
def splitClosing? : Text → Option (Text × Text)
  | [] => none
  | c :: s =>
    if c = '"' ∧ closes s then some ([], s)
    else (splitClosing? s).map fun (value, rest) => (c :: value, rest)

/-- A closing parenthesis at the end is taken off. -/
def dropClosing (s : Text) : Text :=
  (Text.stripLast? ')' s).getD s

def readAssignment? (grouped : Bool) : Text → Option (Form × Text)
  | '"' :: s => do
    let (name, s) ← readTarget? s
    let (value, rest) ← splitClosing? s
    return (.assignment (Text.trim name) value, rest.dropWhile fun c => !Separator.isStart c)
  | s => do
    let (name, s) ← readTarget? s
    let body := takeBody false s
    let value := Text.trim body
    let value := if grouped then Text.trimEnd (dropClosing value) else value
    return (.assignment (Text.trim name) value, s.drop body.length)

/-- The items of a loop, up to its closing parenthesis or the end of the line. -/
def takeItems : (quoted : Bool) → Text → Text
  | _, [] => []
  | true, c :: s => if Text.isBreak c then [] else c :: takeItems (c != '"') s
  | false, c :: s => if c = ')' ∨ Text.isBreak c then [] else c :: takeItems (c == '"') s

/-- The variable of a loop: one or two percent signs and a letter. -/
def readVariable? : Text → Option (Text × Char × Text)
  | '%' :: '%' :: c :: s => if c.isAlpha then some ("%%".toList, c, s) else none
  | '%' :: c :: s => if c.isAlpha then some ("%".toList, c, s) else none
  | _ => none

def readLoop? (grouped : Bool) (s : Text) : Option (Form × Text) := do
  let (marks, letter, s) ← readVariable? s
  let s ← dropKeyword? "in" (← dropBlanks? s)
  match s.dropWhile Text.isBlank with
  | '(' :: s =>
    let items := takeItems false s
    match s.drop items.length with
    | ')' :: s =>
      let s ← dropBlanks? (← dropKeyword? "do" (← dropBlanks? s))
      let body := takeBody false s
      return (.loop ⟨grouped, marks, letter, items, body⟩, s.drop body.length)
    | _ => none
  | _ => none

/-- The form of the statement at the head of a text, and what follows it. -/
def readForm (s : Text) : Form × Text :=
  let items := lead s
  let grouped := isGrouped items
  let rest := s.drop (leadText items).length
  let form? :=
    ((dropKeyword? "for" rest).bind dropBlanks?).bind (readLoop? grouped) <|>
    ((dropKeyword? "set" rest).bind dropBlanks?).bind (readAssignment? grouped)
  form?.getD (.command, s.drop (takeBody false s).length)

end Unmask.Script
