import Unmask.Definitions.Stock
import Unmask.Expansion.Scope
import Unmask.InfFile.Line
import Unmask.Revealed
import Unmask.Settings.Basic

/-!
# Revealing INF files

The entries of the strings sections are definitions, and every line can refer to each of them,
so all are collected first.  The output is the rest of the file with every `%KEY%` expanded.  The
two passes over the lines keep track of the section each for itself.
-/

namespace Unmask.InfFile

variable (settings : Settings)

/--
The keys and the values of the lines that define a name; `inStrings` tells whether the lines go on
with a strings section.
-/
def definitionsFrom : (inStrings : Bool) → List Line → List (Text × Text)
  | _, [] => []
  | inStrings, line :: lines =>
    match line.form with
    | .header name => definitionsFrom (LineForm.isStringsName name) lines
    | .entry key value =>
      if inStrings || !settings.infStringsOnly then
        (key, bareValue value) :: definitionsFrom inStrings lines
      else definitionsFrom inStrings lines
    | .text => definitionsFrom inStrings lines

/-- The lines that are part of the output, found in the same way. -/
def keptFrom : (inStrings : Bool) → List Line → List Text
  | _, [] => []
  | inStrings, line :: lines =>
    match line.form with
    | .header name =>
      if LineForm.isStringsName name then keptFrom true lines else line.text :: keptFrom false lines
    | .entry _ _ =>
      if inStrings || !settings.infStringsOnly then keptFrom inStrings lines
      else line.text :: keptFrom inStrings lines
    | .text =>
      if inStrings then keptFrom inStrings lines else line.text :: keptFrom inStrings lines

def assignments (lines : List Line) : List Assignment :=
  (definitionsFrom settings false lines).zipIdx.map fun ((key, value), order) => ⟨key, value, order⟩

/-- Expands texts one after the other, and says whether one of them is cyclic. -/
def expandAll (scope : Expansion.Scope) :
    List Text → Expansion.Memory → Except Fault ((List Text × Bool) × Expansion.Memory)
  | [], memory => .ok (([], false), memory)
  | text :: texts, memory => do
    let (head, memory) ← scope.expand text memory
    let ((tail, cyclic), memory) ← expandAll scope texts memory
    return ((head.value :: tail, head.cyclic || cyclic), memory)

def reveal (s : Text) : Except Fault Revealed := do
  let lines := readLines s
  let assignments := assignments settings lines
  let start := if settings.wellKnown then Definitions.stock .inf else .empty
  let definitions := assignments.foldl (fun ds a => ds.define a) start
  let ((values, cyclic), memory) ←
    expandAll ⟨definitions, .inf, settings.unknownNames⟩ (keptFrom settings false lines) .empty
  return ⟨Text.trimEnd (Text.join ['\n'] values), assignments, memory.diagnostics, cyclic⟩

end Unmask.InfFile
