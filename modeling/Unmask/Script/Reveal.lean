import Unmask.Definitions.Stock
import Unmask.Expansion.Scope
import Unmask.Revealed
import Unmask.Script.Basic
import Unmask.Script.Transcript
import Unmask.Settings.Basic

/-!
# Revealing scripts

The statements are taken in order.  One that sets variables adds to the definitions; any other
is expanded against the definitions so far and becomes part of the output, unless its expansion
is itself a statement that sets variables.

A switch `/v` or `/v:on` in front of a statement makes `!NAME!` a reference from there on.  In
the end the output is searched for references that would expand again.
-/

namespace Unmask.Script

/-- Whether the words in front of a command hold the switch `/v` or `/v:on`. -/
def holdsDelayedSwitch : (words : List Text) → Bool
  | [] => false
  | word :: words =>
    let word := Text.asciiLower (word.dropWhile fun c => c == '(' || c == '@')
    if word.isEmpty || "cmd".toList.isSuffixOf word || "cmd.exe".toList.isSuffixOf word then
      holdsDelayedSwitch words
    else
      match word with
      | '/' :: switch =>
        if switch = "v".toList ∨ switch = "v:on".toList then true else holdsDelayedSwitch words
      | _ => false

/-- The dialect of a command line with or without delayed expansion. -/
def dialect (delayed : Bool) : Dialect :=
  if delayed then .delayed else .percent

/-- Where a run over a script stands. -/
structure Progress where
  delayed : Bool
  definitions : Definitions
  assignments : List Assignment
  diagnostics : List Diagnostic
  cyclic : Bool
  transcript : Transcript
deriving DecidableEq, Repr

namespace Progress

def start (settings : Settings) : Progress where
  delayed := settings.delayedExpansion
  definitions := if settings.wellKnown then Definitions.stock .percent else .empty
  assignments := []
  diagnostics := []
  cyclic := false
  transcript := .empty

def expand (settings : Settings) (text : Text) (p : Progress) :
    Except Fault (Text × Progress) := do
  let scope : Expansion.Scope := ⟨p.definitions, dialect p.delayed, settings.unknownNames⟩
  let (resolution, memory) ← scope.expand text .empty
  let diagnostics := memory.diagnostics.foldl (fun ds d => d.add ds) p.diagnostics
  return (resolution.value, { p with diagnostics, cyclic := p.cyclic || resolution.cyclic })

def define (p : Progress) (definition : Text × Text) : Progress :=
  let a : Assignment := ⟨definition.1, definition.2, p.assignments.length⟩
  { p with definitions := p.definitions.define a, assignments := p.assignments ++ [a] }

def write (statement : Text) (p : Progress) : Progress :=
  { p with transcript := p.transcript.write statement }

/-- Takes a statement that sets variables and reads as `rendered` in the output. -/
def assign (settings : Settings) (kind : Kind) (rendered : Text) (p : Progress) : Progress :=
  kind.definitions.foldl define (if settings.keepAssignments then p.write rendered else p)

def take (settings : Settings) (statement : Statement) (p : Progress) :
    Except Fault Progress := do
  let p := { p with delayed := p.delayed || holdsDelayedSwitch (Text.words statement.text) }
  match statement.kind with
  | .command =>
    let (value, p) ← p.expand settings statement.text
    let kind :=
      if value = statement.text then .command
      else ((Statement.whole? value).map Statement.kind).getD .command
    if kind = .command then return p.write value
    else if kind = .endless then .error .endlessLoop
    else return p.assign settings kind value
  | .assignment name value =>
    if settings.keepAssignments then
      let (rendered, p) ← p.expand settings statement.text
      return p.assign settings (.assignment name value) rendered
    else return p.assign settings (.assignment name value) statement.text
  | .loop definitions => return p.assign settings (.loop definitions) statement.text
  | .endless => .error .endlessLoop

def takeNext (settings : Settings) (next : Separator × Statement) (p : Progress) :
    Except Fault Progress :=
  { p with transcript := p.transcript.separate next.1 }.take settings next.2

def takeAll (settings : Settings) :
    (rest : List (Separator × Statement)) → Progress → Except Fault Progress
  | [], p => .ok p
  | next :: rest, p => do takeAll settings rest (← p.takeNext settings next)

/-- The output, laid out as the settings say. -/
def output (settings : Settings) (p : Progress) : Text :=
  if settings.raw then p.transcript.output else wrap settings.wrapWidth p.transcript.output

def finish (settings : Settings) (p : Progress) : Except Fault Revealed := do
  let output := p.output settings
  let scope : Expansion.Scope := ⟨p.definitions, dialect p.delayed, .erase⟩
  let live ← scope.liveReferences output
  let diagnostics :=
    live.foldl (fun ds token => (Diagnostic.ambiguousExpansion token).add ds) p.diagnostics
  return ⟨output, p.assignments, diagnostics, p.cyclic⟩

end Progress

def reveal (settings : Settings) (s : Text) : Except Fault Revealed := do
  let script ← scan s
  let p ← (Progress.start settings).take settings script.head
  let p ← p.takeAll settings script.tail
  p.finish settings

end Unmask.Script
