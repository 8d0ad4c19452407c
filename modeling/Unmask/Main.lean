import Unmask.CommandLine.Run

/-!
# The program

The machine it runs on is the host of the call.  No programs are started from here.
-/

namespace Unmask

/-- A path as the file system of the machine takes it, which is UTF-8. -/
def entryAt (path : Path) : IO.FS.DirEntry :=
  { root := String.ofList (Encoding.Utf8.decode path), fileName := "" }

def attempt {α : Type} (action : IO α) : IO (Except FileError α) := do
  try
    return .ok (← action)
  catch e =>
    match e with
    | .noFileOrDirectory .. => return .error .notFound
    | _ => return .error (.other (toString e).toList)

partial def readToEnd (stream : IO.FS.Stream) (before : ByteArray) : IO ByteArray := do
  let chunk ← stream.read 65536
  if chunk.isEmpty then return before else readToEnd stream (before ++ chunk)

instance : Host IO where
  isDirectory path := (entryAt path).root.isDir
  fileNames path := attempt do
    let entries ← (entryAt path).root.readDir
    let files ← entries.filterM fun entry => return (← entry.path.metadata).type == .file
    return files.toList.map fun entry => Encoding.Utf8.encode entry.fileName.toList
  makeDirectory path := attempt (IO.FS.createDirAll (entryAt path).root)
  readFile path := attempt do return (← IO.FS.readBinFile (entryAt path).root).toList
  writeFile path content :=
    attempt (IO.FS.writeBinFile (entryAt path).root ⟨content.toArray⟩)
  standardInput := do return (← readToEnd (← IO.getStdin) .empty).toList

end Unmask

/-- Carries out a call, and ends as it ends. -/
def main (arguments : List String) : IO UInt32 := do
  let ending : Unmask.CommandLine.Ending ←
    Unmask.CommandLine.run Unmask.Launcher.none (arguments.map String.toList)
  IO.print (String.ofList ending.output)
  return ending.status.toUInt32
