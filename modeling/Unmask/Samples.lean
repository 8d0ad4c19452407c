import Unmask.Host.Basic
import Unmask.Report.CommandLine
import Unmask.Script.Reveal

/-!
# Samples

Every file of a directory is a sample: a shortcut whose command line is to be revealed.  A
source gives a report on each; the arguments in it and what they do are written side by side.

A sample without usable arguments is skipped with a warning.  Only a missing directory, an
output directory that cannot be made, or a fault ends the run.

The files written for a sample are named by what is read of its name.  Where that is no UTF-8 it
is read with errors, so different samples may have the same files.
-/

namespace Unmask

/-- Why a sample or all of them cannot be used. -/
inductive SampleError where
  /-- The program that writes the reports is not there. -/
  | missingProgram (program : Text)
  /-- The samples are to be found in something that is no directory. -/
  | noDirectory (path : Text)
  /-- A report tells no arguments. -/
  | noArguments (name : Text)
  /-- A file or a program failed. -/
  | failed (reason : Text)
  /-- A report is no JSON. -/
  | badReport
deriving DecidableEq, Repr

namespace SampleError

def label : SampleError → Text
  | missingProgram _ => "MissingDependency".toList
  | noDirectory _ => "InvalidArguments".toList
  | noArguments _ => "EmptyExtraction".toList
  | failed _ => "IoError".toList
  | badReport => "JsonError".toList

/-- What went wrong; of a bad report nothing more is told. -/
def detail : SampleError → Text
  | missingProgram program => '"' :: program ++ "\" is not installed or not in PATH".toList
  | noDirectory path => '"' :: path ++ "\" is not a directory".toList
  | noArguments name => "No command line arguments in \"".toList ++ name ++ ['"']
  | failed reason => reason
  | badReport => []

def message (e : SampleError) : Text :=
  if e = badReport then e.label else e.label ++ ": ".toList ++ e.detail

end SampleError

/-- What became of the samples of a directory. -/
structure Collection where
  /-- The files that tell what the samples do. -/
  written : List Path
  /-- The samples that could not be used. -/
  skipped : List Path
  /-- Why they could not, in the same order. -/
  warnings : List SampleError
deriving DecidableEq, Repr

/-- What ends a run over samples. -/
inductive Stop where
  | refused (error : SampleError)
  | fault (fault : Fault)
deriving DecidableEq, Repr

namespace Samples

variable {m : Type → Type} [Monad m] [Host m]

/-! ## Reports -/

abbrev Source (m : Type → Type) := (path : Path) → m (Except SampleError Text)

/-- Checks that the program named in the settings can be started. -/
def ensureReader (launch : Launcher m) (settings : Settings) : m (Except SampleError Unit) := do
  match ← launch settings.readerProgram [Encoding.Utf8.bytes "-h"] with
  | .ok _ => return .ok ()
  | .error .notFound => return .error (.missingProgram settings.readerProgram)
  | .error e => return .error (.failed e.message)

/-- The reports that the program named in the settings writes on files. -/
def reader (launch : Launcher m) (settings : Settings) : Source m := fun path => do
  let arguments := settings.readerArguments.map Encoding.Utf8.encode ++ [path]
  match ← launch settings.readerProgram arguments with
  | .error e => return .error (.failed e.message)
  | .ok finished =>
    if finished.succeeded then return .ok (Encoding.Utf8.decode finished.output)
    else
      return .error (.failed (settings.readerProgram ++ " failed on \"".toList ++
        Encoding.Utf8.decode path ++ "\": ".toList ++
        Text.trim (Encoding.Utf8.decode finished.errors)))

/-! ## One sample -/

def argumentsDirectory (output : Path) : Path :=
  joinPath output (Encoding.Utf8.bytes "original")

def revealedDirectory (output : Path) : Path :=
  joinPath output (Encoding.Utf8.bytes "deobfuscated")

/-- What is read of the name of a sample. -/
def nameText (name : FileName) : Text :=
  Encoding.Utf8.decode name

/-- The name of the files written for a sample. -/
def fileName (name : FileName) : FileName :=
  Encoding.Utf8.encode (nameText name ++ ".txt".toList)

/-- The arguments in the text of a report on the sample `name`. -/
def readReport (name : FileName) (report : Text) : Except SampleError Text :=
  match Report.Json.read? report with
  | none => .error .badReport
  | some json =>
    match Report.arguments? json with
    | none => .error (.noArguments (nameText name))
    | some arguments => .ok arguments

/-- Writes the arguments of a sample and what they do, and gives the path of the latter. -/
def writeSample (settings : Settings) (output : Path) (name : FileName) (arguments : Text) :
    m (Except Fault (Except SampleError Path)) := do
  let aside := joinPath (argumentsDirectory output) (fileName name)
  match ← Host.writeFile aside (Encoding.Utf8.encode arguments) with
  | .error e => return .ok (.error (.failed e.message))
  | .ok () =>
    match Script.reveal settings arguments with
    | .error fault => return .error fault
    | .ok revealed =>
      let target := joinPath (revealedDirectory output) (fileName name)
      match ← Host.writeFile target (Encoding.Utf8.encode (revealed.output ++ ['\n'])) with
      | .error e => return .ok (.error (.failed e.message))
      | .ok () => return .ok (.ok target)

/-- Takes the sample `name` of a directory. -/
def takeSample (source : Source m) (settings : Settings) (directory output : Path)
    (name : FileName) : m (Except Fault (Except SampleError Path)) := do
  match ← source (joinPath directory name) with
  | .error e => return .ok (.error e)
  | .ok report =>
    match readReport name report with
    | .error e => return .ok (.error e)
    | .ok arguments => writeSample settings output name arguments

/-! ## All samples -/

def takeAll (source : Source m) (settings : Settings) (directory output : Path) :
    (names : List FileName) → m (Except Fault Collection)
  | [] => return .ok ⟨[], [], []⟩
  | name :: names => do
    match ← takeSample source settings directory output name with
    | .error fault => return .error fault
    | .ok result =>
      match ← takeAll source settings directory output names with
      | .error fault => return .error fault
      | .ok c =>
        match result with
        | .ok target => return .ok { c with written := target :: c.written }
        | .error e =>
          return .ok { c with
            skipped := joinPath directory name :: c.skipped, warnings := e :: c.warnings }

def sortNames (names : List FileName) : List FileName :=
  names.mergeSort

def collect (source : Source m) (settings : Settings) (directory output : Path) :
    m (Except Stop Collection) := do
  if !(← Host.isDirectory directory) then
    return .error (.refused (.noDirectory (Encoding.Utf8.decode directory)))
  match ← Host.makeDirectory (argumentsDirectory output) with
  | .error e => return .error (.refused (.failed e.message))
  | .ok () =>
    match ← Host.makeDirectory (revealedDirectory output) with
    | .error e => return .error (.refused (.failed e.message))
    | .ok () =>
      match ← Host.fileNames directory with
      | .error e => return .error (.refused (.failed e.message))
      | .ok names =>
        match ← takeAll source settings directory output (sortNames names) with
        | .error fault => return .error (.fault fault)
        | .ok collection => return .ok collection

end Samples

end Unmask
