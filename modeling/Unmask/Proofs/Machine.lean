import Unmask.Script.Form

/-!
# The machine that finds separators

A machine walks over a text from left to right.  A double quote takes it into quotes and out of
them, outside of quotes a caret makes the next character ordinary, and a separator ends the
statement where the machine is outside of quotes.  A line break ends quotes.  Behind a separator it
is outside of quotes again.

Quoted assignments are an exception: what stands between their quotes may hold anything, and the
closing quote is the first one with no other quote behind it in the statement.  So the machine
passes over them and goes on behind the closing quote.
-/

namespace Unmask.Script

inductive Mode where
  /-- Outside of quotes. -/
  | plain
  /-- Inside of quotes. -/
  | quoted
  /-- Outside of quotes, behind a caret. -/
  | escaped
deriving DecidableEq, Repr

namespace Mode

def stops : Mode → Char → Bool
  | plain, c => Separator.isStart c
  | quoted, c => Text.isBreak c
  | escaped, _ => false

/-- Where the machine is behind a character. -/
def next : Mode → Char → Mode
  | plain, c => if c = '"' then quoted else if c = '^' then escaped else plain
  | quoted, c => if c = '"' then plain else quoted
  | escaped, _ => plain

def pass : Mode → Text → Text
  | _, [] => []
  | mode, c :: s => if mode.stops c then [] else c :: (mode.next c).pass s

end Mode

/-! ## Quoted assignments -/

/-- What follows the keyword of an assignment and its blanks. -/
def assignmentText? (s : Text) : Option Text :=
  (dropKeyword? "set" (s.drop (leadText (lead s)).length)).bind dropBlanks?

/-- What follows the closing quote of a value, behind the quote in front of its name. -/
def behindClosing? (s : Text) : Option Text := do
  let (_, s) ← readTarget? s
  let (_, rest) ← splitClosing? s
  return rest

/-- What follows the closing quote, if the statement at the head of a text is a quoted assignment. -/
def behindQuoted? (s : Text) : Option Text := do
  match ← assignmentText? s with
  | '"' :: s => behindClosing? s
  | _ => none

/-- The statement that the machine finds, if it passes over quoted assignments. -/
def reach (s : Text) : Text :=
  match behindQuoted? s with
  | none => Mode.plain.pass s
  | some rest => s.take (s.length - rest.length) ++ Mode.plain.pass rest

/--
Whether the statement at the head of a text is a quoted assignment and, behind its closing quote, a
caret makes the next separator ordinary.
-/
def escapesBehindQuoted (s : Text) : Bool :=
  match behindQuoted? s with
  | none => false
  | some rest =>
    rest.any Separator.isStart &&
      (rest.takeWhile fun c => !Separator.isStart c).foldl Mode.next .plain == .escaped

/-! ## Cutting a text -/

/-- Each separator with the text behind it, `statement` being what a statement takes of a text. -/
def separators (statement : Text → Text) (s : Text) : List (Separator × Text) :=
  match _h : s.drop (statement s).length with
  | [] => []
  | c :: t =>
    match Separator.first? c t with
    | none => []
    | some (separator, width) =>
      (separator, t.drop width) :: separators statement (t.drop width)
termination_by s.length
decreasing_by
  have hlength := congrArg List.length _h
  simp only [List.length_drop, List.length_cons] at hlength ⊢
  omega

/-- The texts at whose heads a statement starts. -/
def starts (statement : Text → Text) (s : Text) : List Text :=
  s :: (separators statement s).map Prod.snd

/-- The first statement, and each separator with the statement behind it. -/
def split (statement : Text → Text) (s : Text) : Text × List (Separator × Text) :=
  (statement s, (separators statement s).map fun next => (next.1, statement next.2))

end Unmask.Script
