import Unmask.Text.Basic

/-!
# Leads

What may stand in front of the keyword of a statement: blanks, opening parentheses, `@`,
switches such as `/c` or `/v:on`, and the command interpreter itself, perhaps with a path.
-/

namespace Unmask.Script

/-- One thing in front of the keyword of a statement. -/
inductive LeadItem where
  /-- A blank, an opening parenthesis or `@`. -/
  | mark (c : Char)
  /-- A slash and a letter, perhaps with a value behind a colon. -/
  | switch (letter : Char) (value : Option Text)
  /-- The command interpreter, as it is called. -/
  | interpreter (path : Text)
deriving DecidableEq, Repr

namespace LeadItem

def toText : LeadItem → Text
  | mark c => [c]
  | switch letter none => ['/', letter]
  | switch letter (some value) => '/' :: letter :: ':' :: value
  | interpreter path => path

/-- Whether a text goes on with a blank. -/
def blankFollows (s : Text) : Bool :=
  s.head?.any Text.isBlank

/-- The switch that goes on with `s` behind its slash. -/
def switch? : Text → Option LeadItem
  | [] => none
  | letter :: s =>
    if letter.isAlpha then
      match s with
      | ':' :: s =>
        let value := s.takeWhile Char.isAlphanum
        if !value.isEmpty && blankFollows (s.drop value.length) then
          some (switch letter (some value))
        else none
      | s => if blankFollows s then some (switch letter none) else none
    else none

/-- The characters of a directory name in the path of the command interpreter. -/
def isPathChar (c : Char) : Bool :=
  c.isAlphanum || c == '_' || c == '-' || c == '.' || c == ':'

/-- The names of the command interpreter. -/
def interpreterNames : List Text :=
  ["cmd".toList, "cmd.exe".toList]

/-- The command interpreter at the head of a text. -/
def interpreter? (s : Text) : Option LeadItem :=
  let path := s.takeWhile fun c => isPathChar c || c == '\\'
  let parts := Text.fields (· == '\\') path
  if parts.dropLast.all (!·.isEmpty) &&
      (parts.getLast?.any fun name => interpreterNames.contains (Text.asciiLower name)) &&
      blankFollows (s.drop path.length) then
    some (interpreter path)
  else none

/-- The item at the head of the text `c :: s`. -/
def first? (c : Char) (s : Text) : Option LeadItem :=
  if Text.isBlank c || c == '(' || c == '@' then some (mark c)
  else if c = '/' then switch? s
  else interpreter? (c :: s)

end LeadItem

/-- The items in front of the keyword of a statement. -/
def lead : Text → List LeadItem
  | [] => []
  | c :: s =>
    match LeadItem.first? c s with
    | none => []
    | some item => item :: lead (s.drop (item.toText.length - 1))
termination_by s => s.length
decreasing_by simp only [List.length_drop, List.length_cons]; omega

def leadText (items : List LeadItem) : Text :=
  items.flatMap LeadItem.toText

/-- Whether a statement was opened by a parenthesis. -/
def isGrouped (items : List LeadItem) : Bool :=
  items.contains (.mark '(')

end Unmask.Script
