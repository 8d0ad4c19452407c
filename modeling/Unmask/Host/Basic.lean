import Unmask.Encoding.Utf8
import Unmask.Text.ByteLength

/-!
# Hosts

What a run needs of the machine it runs on: files, directories, the standard input, and programs
that can be started.  The rest of the library is written against this interface, so a run can be
carried out on a real machine and reasoned about on a modelled one.
-/

namespace Unmask

inductive FileError where
  | notFound
  | notDirectory
  | isDirectory
  | alreadyExists
  | nameTooLong
  /-- Another reason, in the words of the host. -/
  | other (reason : Text)
deriving DecidableEq, Repr

def FileError.message : FileError → Text
  | notFound => "No such file or directory (os error 2)".toList
  | notDirectory => "Not a directory (os error 20)".toList
  | isDirectory => "Is a directory (os error 21)".toList
  | alreadyExists => "File exists (os error 17)".toList
  | nameTooLong => "File name too long (os error 36)".toList
  | other reason => reason

/-- The name of a file or a directory.  It is often UTF-8, but it need not be. -/
abbrev FileName := Bytes

/-- Names with a slash between them. -/
abbrev Path := Bytes

def slash : UInt8 := 0x2F

/-- The names that lead from the root to a file or a directory. -/
abbrev Place := List FileName

/-- A machine with files. -/
class Host (m : Type → Type) where
  isDirectory (path : Path) : m Bool
  /-- The names of the files in a directory, in no certain order; directories are not among them. -/
  fileNames (path : Path) : m (Except FileError (List FileName))
  /-- Makes a directory and those above it that are missing. -/
  makeDirectory (path : Path) : m (Except FileError Unit)
  readFile (path : Path) : m (Except FileError Bytes)
  /-- Replaces the content of a file, which is made if there is none. -/
  writeFile (path : Path) (content : Bytes) : m (Except FileError Unit)
  standardInput : m Bytes

/--
The path to `name` from the directory `base`; a name that starts at the root stands for itself.
-/
def joinPath (base name : Path) : Path :=
  if name.head? = some slash then name
  else if base.isEmpty || base.getLast? == some slash then base ++ name
  else base ++ slash :: name

/-! ## Programs -/

/-- How a program ended, and what it wrote. -/
structure Finished where
  succeeded : Bool
  output : Bytes
  errors : Bytes
deriving DecidableEq, Repr

/-- A way to start programs.  A program is named, gets its arguments, and has come to its end. -/
abbrev Launcher (m : Type → Type) :=
  (program : Text) → (arguments : List Bytes) → m (Except FileError Finished)

def Launcher.none {m : Type → Type} [Monad m] : Launcher m := fun _ _ =>
  return .error .notFound

end Unmask
