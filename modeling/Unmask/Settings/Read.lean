import Unmask.Settings.Basic
import Unmask.Settings.Ini

/-!
# Reading settings

The settings of an INI file: how to reveal is told in the section `deobfuscate`, which program
reads shortcut files in the section `collect`.  What a file leaves out keeps its default.  Of
several wrong values the first in the order of `ofIni` is told.
-/

namespace Unmask

/-- Why a text is no number. -/
inductive NumberError where
  /-- There is no text. -/
  | empty
  /-- A character is no digit. -/
  | invalidDigit
  /-- The number does not fit into 64 bits. -/
  | tooLarge
deriving DecidableEq, Repr

def NumberError.message : NumberError → String
  | empty => "cannot parse integer from empty string"
  | invalidDigit => "invalid digit found in string"
  | tooLarge => "number too large to fit in target type"

/-- Why there are no settings. -/
inductive SettingsError where
  /-- The file cannot be read; its text says why. -/
  | unreadable (message : Text)
  /-- The value of a key makes no sense; the detail says why, or is that value. -/
  | invalidValue (key : String) (detail : Text)
deriving DecidableEq, Repr

def SettingsError.message : SettingsError → Text
  | unreadable message => "Cannot read config: ".toList ++ message
  | invalidValue key detail =>
    "Invalid value for \"".toList ++ key.toList ++ "\": ".toList ++ detail

namespace Settings

def greatest : Nat := 0xFFFFFFFFFFFFFFFF

/-- Reads decimal digits behind an already read number, from left to right up to the first error. -/
def readDigits : (n : Nat) → Text → Except NumberError Nat
  | n, [] => .ok n
  | n, c :: s =>
    match Text.digitValue? 10 c with
    | none => .error .invalidDigit
    | some d => if greatest < n * 10 + d then .error .tooLarge else readDigits (n * 10 + d) s

/-- Reads a number of 64 bits, perhaps with a plus sign in front. -/
def readNumber (s : Text) : Except NumberError Nat :=
  match s with
  | [] => .error .empty
  | ['+'] => .error .invalidDigit
  | '+' :: s => readDigits 0 s
  | s => readDigits 0 s

/-- The words for true and for false. -/
def switchWords : List String × List String :=
  (["true", "yes", "t", "y", "on", "1"], ["false", "no", "f", "n", "off", "0"])

/-- Reads a word for true or for false, in any letter case. -/
def readSwitch? (s : Text) : Option Bool :=
  let word := String.ofList (Text.lowercase s)
  if switchWords.1.contains word then some true
  else if switchWords.2.contains word then some false
  else none

/-- The switch under a key, or `standard` if there is none. -/
def switch (ini : Ini) (key : String) (standard : Bool) : Except SettingsError Bool :=
  match ini.get? "deobfuscate" key with
  | none => .ok standard
  | some value =>
    match readSwitch? value with
    | some b => .ok b
    | none =>
      .error (.invalidValue key
        ("Unable to parse value into bool at deobfuscate:".toList ++ key.toList))

/-- The policy for undefined names that a word stands for. -/
def readPolicy (s : Text) : Except SettingsError UnknownNames :=
  let word := String.ofList (Text.asciiLower (Text.trim s))
  if word = "empty" then .ok .erase
  else if word = "keep" then .ok .keep
  else .error (.invalidValue "undefined" s)

/-- The number under the key `wrap_width`, or `standard` if there is none. -/
def width (ini : Ini) (standard : Nat) : Except SettingsError Nat :=
  match ini.get? "deobfuscate" "wrap_width" with
  | none => .ok standard
  | some value =>
    match readNumber value with
    | .ok n => .ok n
    | .error e => .error (.invalidValue "wrap_width" e.message.toList)

/-- The policy under the key `undefined`, or `standard` if there is none. -/
def policy (ini : Ini) (standard : UnknownNames) : Except SettingsError UnknownNames :=
  match ini.get? "deobfuscate" "undefined" with
  | none => .ok standard
  | some value => readPolicy value

def ofIni (ini : Ini) : Except SettingsError Settings := do
  let standard : Settings := {}
  let delayedExpansion ← switch ini "delayed_expansion" standard.delayedExpansion
  let keepAssignments ← switch ini "keep_assignments" standard.keepAssignments
  let raw ← switch ini "raw" standard.raw
  let wellKnown ← switch ini "well_known" standard.wellKnown
  let infStringsOnly ← switch ini "inf_strings_only" standard.infStringsOnly
  let wrapWidth ← width ini standard.wrapWidth
  let unknownNames ← policy ini standard.unknownNames
  let readerProgram := (ini.get? "collect" "lnk_parser").getD standard.readerProgram
  let readerArguments :=
    ((ini.get? "collect" "lnk_parser_args").map Text.words).getD standard.readerArguments
  return {
    delayedExpansion, keepAssignments, raw, wellKnown, infStringsOnly, wrapWidth,
    unknownNames, readerProgram, readerArguments }

def read (s : Text) : Except SettingsError Settings :=
  match Ini.read s with
  | .ok ini => ofIni ini
  | .error e => .error (.unreadable e.message)

end Settings

end Unmask
