import Unmask.Expansion.Basic

/-!
# Settings

What a run can be told: how references are followed, what becomes part of the output, how long
lines are laid out, and which program reads shortcut files.
-/

namespace Unmask

structure Settings where
  /-- Whether `!NAME!` is a reference from the start. -/
  delayedExpansion : Bool := false
  /-- Whether statements that set variables are part of the output. -/
  keepAssignments : Bool := false
  /-- Whether long lines stay as they are. -/
  raw : Bool := false
  /-- Whether the stock definitions of a host are known. -/
  wellKnown : Bool := false
  /-- Whether only the strings sections of an INF file define names. -/
  infStringsOnly : Bool := true
  /-- The most characters of a line that is not broken. -/
  wrapWidth : Nat := 120
  /-- What a reference to an undefined name becomes. -/
  unknownNames : UnknownNames := .erase
  /-- The program that reads a shortcut file. -/
  readerProgram : Text := "lnkparse".toList
  /-- What the program is told in front of the name of the file. -/
  readerArguments : List Text := ["-j".toList]
deriving DecidableEq, Repr

end Unmask
