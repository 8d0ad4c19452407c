import Unmask.Script.Form

/-!
# Statements

A statement sets a variable, sets variables in a loop, or runs a command.

## Algorithm

The body of a loop is instantiated for each item, and an instance that is one statement from end to
end gives the definitions of that statement.  An instance may be a loop again, and it may be longer
than the loop that it is an instance of.  So nothing bounds how often that is followed: a loop whose
instances come back to it is endless.
-/

namespace Unmask.Script

inductive Kind where
  /-- Gives a name a value. -/
  | assignment (name value : Text)
  /-- Gives names values, at least once. -/
  | loop (definitions : List (Text × Text))
  /-- Runs a command. -/
  | command
  /-- Goes on for ever. -/
  | endless
deriving DecidableEq, Repr

/-- A statement beside its text. -/
structure Statement where
  text : Text
  kind : Kind
deriving DecidableEq, Repr

/-! ## Loops -/

/--
The items of a list: its parts between white space, commas, semicolons and equals signs that
stand outside quotes.  Parts may be empty here.
-/
def itemParts : (quoted : Bool) → Text → List Text
  | _, [] => [[]]
  | quoted, c :: s =>
    if !quoted && (Text.isSpace c || c == ',' || c == ';' || c == '=') then
      [] :: itemParts false s
    else Text.consFirst c (itemParts (if c = '"' then !quoted else quoted) s)

/-- The items of a list, quotes included. -/
def splitItems (s : Text) : List Text :=
  (itemParts false s).filter (!·.isEmpty)

/--
The body of a loop for each item; `~` in front of the letter asks for the item without quotes.
-/
def Loop.instances (loop : Loop) : List Text :=
  let body := Text.trimEnd loop.body
  let body := if loop.grouped then dropClosing body else body
  (splitItems loop.items).map fun item =>
    let bare := (Text.unquote? '"' item).getD item
    let unquoted := Text.replaceAll (· == ·) (loop.marks ++ ['~', loop.letter]) bare body
    Text.replaceAll (· == ·) (loop.marks ++ [loop.letter]) item unquoted

/-- The form of a text that is one statement from end to end. -/
def wholeForm? (s : Text) : Option Form :=
  match readForm s with
  | (form, []) => some form
  | (_, _ :: _) => none

/-- What a loop comes to for its items, where that is one statement from end to end. -/
def Loop.inner (loop : Loop) : List Form :=
  loop.instances.filterMap wholeForm?

namespace Form

/-- The definitions of a form; there are none, not even an empty list, if its loops never end. -/
def definitions? : Form → Option (List (Text × Text))
  | assignment name value => some [(name, value)]
  | command => some []
  -- by `apply`, since the name alone would stay in the term with its place in the source
  | loop l => return (← l.inner.mapM (by apply definitions?)).flatten
partial_fixpoint

/-- What a statement of a form does; a loop without definitions is a command. -/
def kind : Form → Kind
  | assignment name value => .assignment name value
  | command => .command
  | loop l =>
    match definitions? (loop l) with
    | none => .endless
    | some [] => .command
    | some (d :: ds) => .loop (d :: ds)

end Form

/-- The names and values that a statement defines, in order. -/
def Kind.definitions : Kind → List (Text × Text)
  | assignment name value => [(name, value)]
  | loop ds => ds
  | command => []
  | endless => []

/-- The statement at the head of a text. -/
def Statement.first (s : Text) : Statement :=
  let (form, rest) := readForm s
  ⟨s.take (s.length - rest.length), form.kind⟩

theorem kind_first (s : Text) : (Statement.first s).kind = (readForm s).1.kind :=
  rfl

/-- The statement that a text is, if it is one from end to end. -/
def Statement.whole? (s : Text) : Option Statement :=
  (wholeForm? s).map fun form => ⟨s, form.kind⟩

end Unmask.Script
