import Unmask.Text.Basic

/-!
# Arguments

The arguments of a call are the name of a command and what it works on.  Options stand in front
of the name or behind it.  An option that takes a value finds it behind `=` or in the next
argument; short options can be written together.  Behind `--` nothing is an option.

## Algorithm

The arguments are taken one by one.  The first that makes no sense refuses the call, unless a
request for help or for the version came before it.
-/

namespace Unmask.CommandLine

/-- The options of a call. -/
inductive Flag where
  | config
  | verbose
  | raw
  | keepVars
  | wellKnown
  | keepUndefined
  | file
  | output
  | version
  | help
deriving DecidableEq, Repr

inductive Command where
  | batch
  | inf
  | collect
  | help
deriving DecidableEq, Repr

/-- What a command is to do. -/
inductive Task where
  /-- Reveal a command line: a text, the content of a file, or else the standard input. -/
  | batch (text file : Option Text)
  /-- Reveal an INF file. -/
  | inf (file : Text)
  /-- Reveal the samples in a directory. -/
  | collect (directory output : Text)
deriving DecidableEq, Repr

/-- A call that makes sense. -/
structure Request where
  config : Option Text
  raw : Bool
  keepVars : Bool
  wellKnown : Bool
  keepUndefined : Bool
  task : Task
deriving DecidableEq, Repr

/-- What a call asks for. -/
inductive Invocation where
  | run (request : Request)
  | version
  | help
  /-- The call makes no sense. -/
  | refused
deriving DecidableEq, Repr

namespace Flag

def longNames : List (String × Flag) :=
  [("config", config), ("verbose", verbose), ("raw", raw), ("keep-vars", keepVars),
    ("well-known", wellKnown), ("keep-undefined", keepUndefined), ("file", file),
    ("output", output), ("version", version), ("help", help)]

def shortNames : List (Char × Flag) :=
  [('c', config), ('v', verbose), ('f', file), ('o', output), ('V', version), ('h', help)]

/-- Whether an option takes a value; each value is a path. -/
def takesValue : Flag → Bool
  | config | file | output => true
  | _ => false

/-- Whether an option is known behind a command, or in front of all if there is none yet. -/
def isKnown (command : Option Command) : Flag → Bool
  | file => command = some .batch
  | output => command = some .collect
  | version => command = none
  | _ => true

end Flag

namespace Command

def names : List (String × Command) :=
  [("batch", batch), ("inf", inf), ("collect", collect), ("help", help)]

def ofName? (name : Text) : Option Command :=
  names.lookup (String.ofList name)

end Command

/-- The options and the other words met on one side of the name of the command. -/
structure Seen where
  flags : List (Flag × Option Text)
  words : List Text
deriving DecidableEq, Repr

namespace Seen

def empty : Seen :=
  ⟨[], []⟩

def has (seen : Seen) (flag : Flag) : Bool :=
  (seen.flags.lookup flag).isSome

def value? (seen : Seen) (flag : Flag) : Option Text :=
  (seen.flags.lookup flag).join

end Seen

/-- Where the reading of the arguments stands. -/
structure Reading where
  /-- What stands in front of the name of the command. -/
  before : Seen
  command : Option Command
  /-- What stands behind it, or in front of it as long as it was not met. -/
  current : Seen
  /-- An option that still lacks its value. -/
  pending : Option Flag
  /-- Whether `--` was met. -/
  plain : Bool
deriving DecidableEq, Repr

namespace Reading

def start : Reading :=
  ⟨.empty, none, .empty, none, false⟩

/-- Takes an option.  Only `verbose` can be repeated, and no path is empty. -/
def takeFlag (flag : Flag) (value : Option Text) (r : Reading) : Except Invocation Reading :=
  if flag = .help then .error .help
  else if flag = .version then .error .version
  else if value = some [] ∨ (flag ≠ .verbose ∧ r.current.has flag) then .error .refused
  else
    .ok { r with
      current := { r.current with flags := r.current.flags ++ [(flag, value)] }
      pending := none }

/-- Takes an option that was named, and the value behind `=`. -/
def takeNamed (flag? : Option Flag) (value : Option Text) (r : Reading) :
    Except Invocation Reading :=
  match flag?.filter (Flag.isKnown r.command) with
  | none => .error .refused
  | some flag =>
    match flag.takesValue, value with
    | true, none => .ok { r with pending := some flag }
    | false, some _ => .error .refused
    | _, _ => r.takeFlag flag value

def takeLong (s : Text) (r : Reading) : Except Invocation Reading :=
  let name := s.takeWhile (· != '=')
  let value :=
    match s.drop name.length with
    | [] => none
    | _ :: value => some value
  r.takeNamed (Flag.longNames.lookup (String.ofList name)) value

/-- Takes options with short names that are written together; a value ends them. -/
def takeShort : (letters : Text) → Reading → Except Invocation Reading
  | [], r => .ok r
  | c :: letters, r =>
    let flag? := Flag.shortNames.lookup c
    if flag?.any Flag.takesValue then
      match letters with
      | [] => r.takeNamed flag? none
      | '=' :: value => r.takeNamed flag? (some value)
      | value => r.takeNamed flag? (some value)
    else do takeShort letters (← r.takeNamed flag? none)

def takeWord (word : Text) (r : Reading) : Except Invocation Reading :=
  match r.command with
  | none =>
    match Command.ofName? word with
    | none => .error .refused
    | some command =>
      if r.plain then .error .refused
      else .ok { r with before := r.current, command := some command, current := .empty }
  | some command =>
    if !r.current.words.isEmpty || (command ≠ .batch && word.isEmpty) then .error .refused
    else .ok { r with current := { r.current with words := [word] } }

def take (r : Reading) (argument : Text) : Except Invocation Reading :=
  if r.plain || r.command = some .help then r.takeWord argument
  else
    match r.pending, argument with
    | some _, '-' :: _ :: _ => .error .refused
    | some flag, value => r.takeFlag flag (some value)
    | none, ['-', '-'] => .ok { r with plain := true }
    | none, '-' :: '-' :: s => r.takeLong s
    | none, '-' :: c :: letters => r.takeShort (c :: letters)
    | none, word => r.takeWord word

/-- What is to be done, from what stands behind the name of the command. -/
def task? (command : Command) (seen : Seen) : Option Task :=
  match command, seen.words with
  | .batch, [] => some (.batch none (seen.value? .file))
  | .batch, [text] => if seen.has .file then none else some (.batch (some text) none)
  | .inf, [file] => some (.inf file)
  | .collect, [directory] =>
    some (.collect directory ((seen.value? .output).getD "payloads".toList))
  | _, _ => none

def finish (r : Reading) : Invocation :=
  match r.pending, r.command with
  | none, some .help =>
    if r.current.words.all fun word => (Command.ofName? word).isSome then .help else .refused
  | none, some command =>
    match task? command r.current with
    | none => .refused
    | some task =>
      let has (flag : Flag) := r.before.has flag || r.current.has flag
      .run {
        config := r.current.value? .config <|> r.before.value? .config
        raw := has .raw
        keepVars := has .keepVars
        wellKnown := has .wellKnown
        keepUndefined := has .keepUndefined
        task }
  | _, _ => .refused

end Reading

def read (arguments : List Text) : Invocation :=
  match arguments.foldlM Reading.take Reading.start with
  | .ok r => r.finish
  | .error invocation => invocation

end Unmask.CommandLine
