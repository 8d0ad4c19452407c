import Unmask.CommandLine.Run
import Unmask.Proofs.Encodings
import Unmask.Proofs.Paths
import Unmask.Proofs.WrittenOptions

/-!
# Files and the standard input

A call of `batch` takes its text from a file or from the standard input.  A file is read by its
mark and whatever it holds; the standard input has to be UTF-8, and a mark is a character of it like
any other.  All else is the same.

    ending_of_settings     a call with settings carries out its task
    ending_cases           how a call ends for a file, and for the standard input
    ending_fileOption      the text of a file, on the standard input
-/

namespace Unmask.CommandLine

open Encoding (splitMark Utf8.encode Utf8.decode? Utf8.bytes)
open WrittenOption (meaning looksLikeOption)

variable {launch : Launcher (StateM World)} {w : World} {path : Text} {words : List Text}
  {request : Request}

/-! ## Calls on a machine -/

/-- How a call ends on a machine. -/
def ending (launch : Launcher (StateM World)) (words : List Text) (w : World) : Ending :=
  (run launch words w).1

def settingsFor (config : Option Text) (w : World) : Option Settings :=
  match config with
  | none => some {}
  | some path => do
    let text ← Encoding.Utf8.decode? (← (w.fileContent (pathOf path)).toOption)
    (Settings.read text).toOption

theorem loadSettings_eq (config : Option Text) (w : World) :
    (loadSettings config : StateM World (Option Settings)) w = (settingsFor config w, w) := by
  cases config with
  | none => rfl
  | some path =>
    unfold loadSettings settingsFor
    dsimp only
    rw [World.bind_readFile rfl]
    cases w.fileContent (pathOf path) with
    | error e => rfl
    | ok content =>
      show _ = ((Encoding.Utf8.decode? content).bind fun text => (Settings.read text).toOption, w)
      dsimp only
      cases Encoding.Utf8.decode? content with
      | none => rfl
      | some text => rfl

theorem ending_of_refused (h : read words = .refused) : ending launch words w = .failure := by
  unfold ending run
  rw [h]
  rfl

theorem ending_of_noSettings (h : read words = .run request) (hnone : settingsFor request.config w = none) :
    ending launch words w = .failure := by
  unfold ending run
  rw [h]
  dsimp only
  rw [World.bind_eq (loadSettings_eq request.config w), hnone]
  rfl

theorem ending_of_settings {settings : Settings} (h : read words = .run request)
    (hsettings : settingsFor request.config w = some settings) :
    ending launch words w =
      (perform launch (request.override settings) request.task w).1 := by
  unfold ending run
  rw [h]
  dsimp only
  rw [World.bind_eq (loadSettings_eq request.config w), hsettings]

/-- How a call of `batch` ends, from the text it is given if there is one. -/
def batchEnding (settings : Settings) : Option Text → Ending
  | none => .failure
  | some s => .ofResult (Script.reveal settings (dropBreaks s))

theorem perform_file {content : Bytes} (hfile : w.fileContent (pathOf path) = .ok content)
    (settings : Settings) :
    perform launch settings (.batch none (some path)) w =
      (batchEnding settings (some (Encoding.decode content)), w) := by
  have hload : (loadScript none (some path) : StateM World (Option Text)) w =
      (some (Encoding.decode content), w) := by
    unfold loadScript
    dsimp only
    rw [World.bind_readFile hfile]
    rfl
  unfold perform
  dsimp only
  rw [World.bind_eq hload]
  rfl

theorem perform_input (settings : Settings) (w : World) :
    perform launch settings (.batch none none) w =
      (batchEnding settings (Encoding.Utf8.decode? w.input), w) := by
  have hload : (loadScript none none : StateM World (Option Text)) w =
      (Encoding.Utf8.decode? w.input, w) := rfl
  unfold perform
  dsimp only
  rw [World.bind_eq hload]
  cases Encoding.Utf8.decode? w.input with
  | none => rfl
  | some s => rfl

theorem batchEnding_some_ne_failure (settings : Settings) (s : Text) :
    batchEnding settings (some s) ≠ .failure := by
  unfold batchEnding Ending.ofResult
  dsimp only
  split
  · exact fun h => Nat.zero_ne_one (congrArg Ending.status h)
  · exact nofun

/-! ## With a file and without -/

section
variable (launch) (before between after : List WrittenOption) {bytes : Bytes}

/-- A call either fails whatever text it is given, or ends as its text does under its settings. -/
theorem ending_cases
    (hglobal : ∀ option ∈ meaning before ++ (meaning between ++ meaning after), option.1.IsGlobal)
    (hpath : looksLikeOption path = false) (hfile : w.fileContent (pathOf path) = .ok bytes) :
    (ending launch (batchArguments before (between ++ fileOption path :: after)) w = .failure ∧
      ∀ input, ending launch (batchArguments before (between ++ after)) { w with input } = .failure) ∨
    ∃ settings,
      ending launch (batchArguments before (between ++ fileOption path :: after)) w =
        batchEnding settings (some (Encoding.decode bytes)) ∧
      ∀ input, ending launch (batchArguments before (between ++ after)) { w with input } =
        batchEnding settings (Utf8.decode? input) := by
  have hne : path ≠ [] := by
    rintro rfl
    cases hfile
  rcases read_fileOption hglobal hpath hne with ⟨hread, hread'⟩ | ⟨request, htask, hread, hread'⟩
  · exact Or.inl ⟨ending_of_refused hread, fun _ => ending_of_refused hread'⟩
  · cases hsettings : settingsFor request.config w with
    | none => exact Or.inl ⟨ending_of_noSettings hread hsettings, fun _ => ending_of_noSettings hread' hsettings⟩
    | some settings =>
      refine Or.inr ⟨request.override settings, ?_, fun input => ?_⟩
      · rw [ending_of_settings hread hsettings, perform_file hfile]
        rfl
      · have hinput : settingsFor request.config { w with input } = some settings := hsettings
        rw [ending_of_settings hread' hinput, htask, perform_input]

/--
A file in any encoding is taken as the standard input that holds its text in UTF-8.  A file without
a mark in UTF-8 has that text already.  What is not UTF-8 fails on the standard input, and in a
file only if the call would fail whatever it is given.
-/
theorem ending_fileOption
    (hglobal : ∀ option ∈ meaning before ++ (meaning between ++ meaning after), option.1.IsGlobal)
    (hpath : looksLikeOption path = false) (hfile : w.fileContent (pathOf path) = .ok bytes) :
    let file := ending launch (batchArguments before (between ++ fileOption path :: after)) w
    let onInput (input : Bytes) := ending launch (batchArguments before (between ++ after)) { w with input }
    file = onInput (Utf8.encode (Encoding.decode bytes)) ∧
      ((Utf8.decode? bytes).isSome → (splitMark bytes).1 = none → file = onInput bytes) ∧
      (Utf8.decode? bytes = none →
        onInput bytes = .failure ∧ (file = .failure → ∀ input, onInput input = .failure)) := by
  intro file onInput
  rcases ending_cases launch before between after hglobal hpath hfile with
    ⟨hfails, hall⟩ | ⟨settings, htaken, hinput⟩
  · exact ⟨hfails.trans (hall _).symm, fun _ _ => hfails.trans (hall _).symm,
      fun _ => ⟨hall _, fun _ => hall⟩⟩
  · refine ⟨?encoded, ?unmarked, ?refused⟩
    case encoded =>
      show file = ending _ _ _
      rw [hinput, Encoding.Utf8.decode?_encode]
      exact htaken
    case unmarked =>
      intro hsome hmark
      obtain ⟨s, hs⟩ := Option.isSome_iff_exists.1 hsome
      have hdecode : Encoding.decode bytes = s :=
        (Encoding.decode_of_unmarked hmark).trans (Encoding.Utf8.decode_of_decode? hs)
      show file = ending _ _ _
      rw [hinput, hs, ← hdecode]
      exact htaken
    case refused =>
      intro hnone
      refine ⟨?_, fun hfails => ?_⟩
      · show ending _ _ _ = _
        rw [hinput, hnone]
        rfl
      · exact absurd (htaken.symm.trans hfails) (batchEnding_some_ne_failure _ _)

end

/-- A file in UTF-16 and one in UTF-8 between options, the settings from a third file. -/
theorem ending_fileOption_utf16 :
    let wide : Bytes := [0xFE, 0xFF, 0x00, 0x25, 0x00, 0x78, 0x00, 0x25]
    let bytes : Bytes := [0x25, 0x78, 0x25]
    let w : World := ⟨((FileTree.empty.put [Utf8.bytes "f"] (.file wide)).put [Utf8.bytes "g"]
      (.file bytes)).put [Utf8.bytes "s"] (.file []), [], []⟩
    let words (file : List Text) : List Text :=
      ["--raw".toList, "batch".toList, "-vv".toList] ++ file ++
        ["-vc=s".toList, "--keep-undefined".toList]
    let ends := ending Launcher.none
    w.fileContent (pathOf "f".toList) = .ok wide ∧ w.fileContent (pathOf "g".toList) = .ok bytes ∧
      ends (words []) { w with input := bytes } = .success "%x%\n".toList ∧
      ends (words []) { w with input := wide } = .failure ∧
      ends (words ["-f".toList, "f".toList]) w = ends (words []) { w with input := bytes } ∧
      ends (words ["-f".toList, "g".toList]) w = ends (words []) { w with input := bytes } := by
  intro wide bytes w words ends
  have hwide : w.fileContent (pathOf "f".toList) = .ok wide := by decide +kernel
  have hbytes : w.fileContent (pathOf "g".toList) = .ok bytes := by decide +kernel
  have hencode : Utf8.encode (Encoding.decode wide) = bytes := by decide +kernel
  let before : List WrittenOption := [.long ⟨"raw", .raw, rfl, rfl⟩]
  let between : List WrittenOption :=
    [.letters ⟨'v', .verbose, rfl, rfl⟩ [⟨'v', .verbose, rfl, rfl⟩]]
  let after : List WrittenOption :=
    [.lettersWith [⟨'v', .verbose, rfl, rfl⟩] ⟨'c', .config, rfl, rfl⟩ "=s".toList nofun,
      .long ⟨"keep-undefined", .keepUndefined, rfl, rfl⟩]
  have hglobal : ∀ option ∈ meaning before ++ (meaning between ++ meaning after),
      option.1.IsGlobal := by decide
  obtain ⟨hencoded, -, hrefused⟩ :=
    ending_fileOption Launcher.none before between after hglobal rfl hwide
  obtain ⟨-, hsame, -⟩ :=
    ending_fileOption Launcher.none before between after hglobal rfl hbytes
  rw [hencode] at hencoded
  exact ⟨hwide, hbytes, by decide +kernel, (hrefused (by decide +kernel)).1, hencoded,
    hsame (by decide +kernel) rfl⟩

/-- The byte `FF` is a character that cannot be read in a file, and nothing on the standard input. -/
theorem ending_fileOption_ne_input :
    let bytes : Bytes := [0xFF]
    let w : World := ⟨FileTree.empty.put [Utf8.bytes "f"] (.file bytes), [], bytes⟩
    let ends := ending Launcher.none
    w.fileContent (pathOf "f".toList) = .ok bytes ∧ w.input = bytes ∧
      ends ["batch".toList, "-f".toList, "f".toList] w = .success "\uFFFD\n".toList ∧
      ends ["batch".toList] w = .failure ∧
      ends ["batch".toList, "-f".toList, "f".toList] w ≠ ends ["batch".toList] w := by
  decide +kernel

end Unmask.CommandLine
