import Unmask.Fault
import Unmask.Script.Statement

/-!
# Scripts

A script is a statement and then any number of separators, each followed by a statement.  A
statement ends where a separator starts or the text ends, so every text is a script.  To tell what
each statement does is another matter, as a loop may be endless.
-/

namespace Unmask

/-- A text cut into statements. -/
structure Script where
  head : Script.Statement
  tail : List (Separator × Script.Statement)
deriving DecidableEq, Repr

namespace Script

/-- The separators and statements behind the first statement. -/
def readTail : Text → List (Separator × Statement)
  | [] => []
  | c :: s =>
    match Separator.first? c s with
    | none => []
    | some (separator, width) =>
      let s := s.drop width
      let statement := Statement.first s
      (separator, statement) :: readTail (s.drop statement.text.length)
termination_by s => s.length
decreasing_by simp only [List.length_drop, List.length_cons]; omega

def read (s : Text) : Script :=
  let head := Statement.first s
  ⟨head, readTail (s.drop head.text.length)⟩

/-- Whether none of the statements goes on for ever. -/
def ends (script : Script) : Bool :=
  script.head.kind != .endless && script.tail.all fun next => next.2.kind != .endless

/-- Reads a text as a script, loops included; an endless one stops that. -/
def scan (s : Text) : Except Fault Script :=
  let script := read s
  if script.ends then .ok script else .error .endlessLoop

end Script

end Unmask
