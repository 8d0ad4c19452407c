import Unmask.Definitions.Basic
import Unmask.Template.Basic

/-!
# Stock definitions

What an ordinary Windows host defines before any input is read: environment variables for
command lines, directory identifiers for INF files.
-/

namespace Unmask.Definitions

/-- The environment variables of an ordinary host. -/
def environment : List (String × String) := [
  ("allusersprofile", "C:\\ProgramData"),
  ("appdata", "C:\\Users\\user\\AppData\\Roaming"),
  ("commonprogramfiles", "C:\\Program Files\\Common Files"),
  ("commonprogramfiles(x86)", "C:\\Program Files (x86)\\Common Files"),
  ("comspec", "C:\\Windows\\system32\\cmd.exe"),
  ("homedrive", "C:"),
  ("homepath", "\\Users\\user"),
  ("localappdata", "C:\\Users\\user\\AppData\\Local"),
  ("os", "Windows_NT"),
  ("path", "C:\\Windows\\system32;C:\\Windows;C:\\Windows\\System32\\Wbem;" ++
    "C:\\Windows\\System32\\WindowsPowerShell\\v1.0\\"),
  ("pathext", ".COM;.EXE;.BAT;.CMD;.VBS;.VBE;.JS;.JSE;.WSF;.WSH;.MSC"),
  ("processor_architecture", "AMD64"),
  ("programdata", "C:\\ProgramData"),
  ("programfiles", "C:\\Program Files"),
  ("programfiles(x86)", "C:\\Program Files (x86)"),
  ("public", "C:\\Users\\Public"),
  ("systemdrive", "C:"),
  ("systemroot", "C:\\Windows"),
  ("temp", "C:\\Users\\user\\AppData\\Local\\Temp"),
  ("tmp", "C:\\Users\\user\\AppData\\Local\\Temp"),
  ("userprofile", "C:\\Users\\user"),
  ("windir", "C:\\Windows")]

def directories : List (String × String) := [
  ("10", "C:\\Windows"),
  ("11", "C:\\Windows\\System32"),
  ("12", "C:\\Windows\\System32\\drivers"),
  ("17", "C:\\Windows\\INF"),
  ("18", "C:\\Windows\\Help"),
  ("20", "C:\\Windows\\Fonts"),
  ("24", "C:\\"),
  ("25", "C:\\Windows"),
  ("30", "C:\\"),
  ("53", "C:\\Users\\user"),
  ("16422", "C:\\Program Files"),
  ("16427", "C:\\Program Files\\Common Files")]

def stock (d : Dialect) : Definitions :=
  let entries := if d = .inf then directories else environment
  ofList (entries.map fun (name, value) => (name.toList, value.toList))

end Unmask.Definitions
