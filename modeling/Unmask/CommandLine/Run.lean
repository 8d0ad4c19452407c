import Unmask.CommandLine.Arguments
import Unmask.Encoding.ByteOrderMark
import Unmask.InfFile.Reveal
import Unmask.Samples
import Unmask.Settings.Read

/-!
# Calls

Carrying out what a call asks for.  The result is written to the standard output only if all
went well; a call that is refused or fails ends with 1, and one that a fault stops with 101.
-/

namespace Unmask.CommandLine

/-- How a call ends: its exit status, and what it writes. -/
structure Ending where
  status : Nat
  output : Text
deriving DecidableEq, Repr

namespace Ending

def success (output : Text) : Ending :=
  ⟨0, output⟩

def failure : Ending :=
  ⟨1, []⟩

/-- A fault stopped the run. -/
def stopped : Ending :=
  ⟨101, []⟩

def ofResult : Except Fault Revealed → Ending
  | .ok revealed => success (revealed.output ++ ['\n'])
  | .error _ => stopped

end Ending

def versionText : Text :=
  "lnk-deobf 0.1.0\n".toList

/-- How the program is called. -/
def helpText : Text :=
  ("Usage: lnk-deobf [OPTIONS] <COMMAND>\n\n" ++
    "Commands:\n  batch [TEXT] [-f FILE]\n  inf FILE\n  collect DIR [-o OUTPUT]\n\n" ++
    "Options:\n  -c, --config FILE\n  -v, --verbose\n  --raw\n  --keep-vars\n" ++
    "  --well-known\n  --keep-undefined\n  -h, --help\n  -V, --version\n").toList

def Request.override (request : Request) (settings : Settings) : Settings :=
  { settings with
    raw := settings.raw || request.raw
    keepAssignments := settings.keepAssignments || request.keepVars
    wellKnown := settings.wellKnown || request.wellKnown
    unknownNames := if request.keepUndefined then .keep else settings.unknownNames }

/-- A text without the line breaks at its end. -/
def dropBreaks (s : Text) : Text :=
  (s.reverse.dropWhile Text.isBreak).reverse

variable {m : Type → Type} [Monad m] [Host m]

/-- The path that an argument spells. -/
def pathOf (argument : Text) : Path :=
  Encoding.Utf8.encode argument

/-- The settings in a file, which has to be UTF-8; without a file, the defaults. -/
def loadSettings (config : Option Text) : m (Option Settings) := do
  match config with
  | none => return some {}
  | some path =>
    match ← Host.readFile (pathOf path) with
    | .error _ => return none
    | .ok content =>
      match Encoding.Utf8.decode? content with
      | none => return none
      | some text => return (Settings.read text).toOption

/-- The text that a call gives, names, or leaves to the standard input, which has to be UTF-8. -/
def loadScript (text file : Option Text) : m (Option Text) := do
  match text, file with
  | some text, _ => return some text
  | none, some path => return (← Host.readFile (pathOf path)).toOption.map Encoding.decode
  | none, none => return Encoding.Utf8.decode? (← Host.standardInput)

section
variable (launch : Launcher m)

def perform (settings : Settings) (task : Task) : m Ending := do
  match task with
  | .batch text file =>
    match ← loadScript text file with
    | none => return .failure
    | some s => return .ofResult (Script.reveal settings (dropBreaks s))
  | .inf file =>
    match ← Host.readFile (pathOf file) with
    | .error _ => return .failure
    | .ok content => return .ofResult (InfFile.reveal settings (Encoding.decode content))
  | .collect directory output =>
    match ← Samples.ensureReader launch settings with
    | .error _ => return .failure
    | .ok () =>
      let source := Samples.reader launch settings
      match ← Samples.collect source settings (pathOf directory) (pathOf output) with
      | .ok _ => return .success []
      | .error (.refused _) => return .failure
      | .error (.fault _) => return .stopped

def run (arguments : List Text) : m Ending := do
  match read arguments with
  | .refused => return .failure
  | .version => return .success versionText
  | .help => return .success helpText
  | .run request =>
    match ← loadSettings request.config with
    | none => return .failure
    | some settings => perform launch (request.override settings) request.task

end

end Unmask.CommandLine
