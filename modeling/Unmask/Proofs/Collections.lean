import Unmask.Proofs.SampleRuns

/-!
# Collections

A collection over a directory makes two directories, takes every file of the directory in order,
and tells what became of it.  Where samples share their files, those of the last one are there in
the end.

    collect_eq_of_made     a collection is a run over samples on the machine with both directories
    exists_of_collect      what a collection without error has gone through
    collect_accounts       every sample is either written or skipped, and the files tell what it does
-/

namespace Unmask

namespace Samples

open FileTree (IsEntry SlashFree slashFree_of_all)

variable {source : Source (StateM World)} {settings : Settings} {directory output : Path}
  {name : FileName} {parent place : Place} {w w₁ w₂ w' : World}
  {result : Except Fault Collection}

/-! ## The machine with both directories -/

/-- The machine once the directories of `output` are made. -/
def prepared (output : Path) (w : World) : World :=
  (World.makeDirectory (revealedDirectory output)
    (World.makeDirectory (argumentsDirectory output) w).2).2

theorem isEntry_original : IsEntry (Encoding.Utf8.bytes "original") :=
  ⟨by decide, by decide, by decide, by decide⟩

theorem isEntry_deobfuscated : IsEntry (Encoding.Utf8.bytes "deobfuscated") :=
  ⟨by decide, by decide, by decide, by decide⟩

theorem isDirectory_iff :
    w.isDirectory directory = true ↔ ∃ place, w.find directory = .ok (place, .directory) := by
  unfold World.isDirectory
  constructor
  · intro h
    split at h
    · next place hfind => exact ⟨place, hfind⟩
    · cases h
  · rintro ⟨place, hfind⟩
    rw [hfind]

section
variable (hargs : World.makeDirectory (argumentsDirectory output) w = (.ok (), w₁))
  (hrevealed : World.makeDirectory (revealedDirectory output) w₁ = (.ok (), w₂))
include hargs hrevealed

theorem prepared_eq : prepared output w = w₂ := by
  unfold prepared
  rw [hargs, hrevealed]

theorem find_of_made (h : w.find directory = .ok (place, .directory)) :
    w₂.find directory = .ok (place, .directory) := by
  obtain ⟨hhere, hgrows⟩ := World.makeDirectory_grows (argumentsDirectory output) w
  obtain ⟨hhere', hgrows'⟩ := World.makeDirectory_grows (revealedDirectory output) w₁
  rw [hargs] at hhere hgrows
  rw [hrevealed] at hhere' hgrows'
  exact World.find_of_keepsDirectories (hhere'.trans hhere)
    (hgrows.trans hgrows').keepsDirectories h

theorem namesIn_of_made (place : Place) : w₂.tree.namesIn place = w.tree.namesIn place := by
  have hfirst := World.namesIn_makeDirectory (argumentsDirectory output) w place
  have hsecond := World.namesIn_makeDirectory (revealedDirectory output) w₁ place
  rw [hargs] at hfirst
  rw [hrevealed] at hsecond
  exact hsecond.trans hfirst

/-- The first directory is found where it is found in the end. -/
theorem exists_find_arguments :
    ∃ p, w₁.find (argumentsDirectory output) = .ok (p, .directory) ∧
      w₂.find (argumentsDirectory output) = .ok (p, .directory) := by
  obtain ⟨p, hp⟩ := World.exists_find_of_makeDirectory
    (joinPath_ne_nil output isEntry_original.ne_nil) hargs
  obtain ⟨hhere, hgrows⟩ := World.makeDirectory_grows (revealedDirectory output) w₁
  rw [hrevealed] at hhere hgrows
  exact ⟨p, hp, World.find_of_keepsDirectories hhere hgrows.keepsDirectories hp⟩

theorem find_of_ready (hready : Ready output parent w₂) :
    w₁.find (argumentsDirectory output) = .ok (argumentsRoot parent, .directory) := by
  obtain ⟨p, hp, hp'⟩ := exists_find_arguments hargs hrevealed
  have hroot := hready.arguments
  rw [hp'] at hroot
  cases hroot
  exact hp

theorem exists_ready : ∃ parent, Ready output parent w₂ := by
  obtain ⟨p, -, hp⟩ := exists_find_arguments hargs hrevealed
  obtain ⟨q, hq⟩ := World.exists_find_of_makeDirectory
    (joinPath_ne_nil output isEntry_deobfuscated.ne_nil) hrevealed
  -- both lie in the directory that `output` leads to
  obtain ⟨parent, hparent, rfl⟩ := World.exists_of_find_joinPath isEntry_original hp
  obtain ⟨parent', hparent', rfl⟩ := World.exists_of_find_joinPath isEntry_deobfuscated hq
  obtain rfl : parent' = parent := Except.ok.inj (hparent'.symm.trans hparent)
  exact ⟨parent', hp, hq⟩

end

/-! ## What a collection does -/

/-- The names of the samples of a directory, in the order in which they are taken. -/
def sampleNames (directory : Path) (w : World) : List FileName :=
  match w.fileNames directory with
  | .ok names => sortNames names
  | .error _ => []

theorem sampleNames_eq (h : w.find directory = .ok (place, .directory)) :
    sampleNames directory w = sortNames (w.tree.namesIn place) := by
  unfold sampleNames World.fileNames
  rw [h]
  rfl

theorem sampleNames_of_sorted {names : List FileName} (hnames : w.fileNames directory = .ok names)
    (hsorted : names.Pairwise fun a b => decide (a ≤ b) = true) : sampleNames directory w = names := by
  unfold sampleNames
  rw [hnames]
  exact List.mergeSort_of_pairwise hsorted

/-- The samples that a collection takes. -/
def history (source : Source (StateM World)) (settings : Settings) (directory output : Path)
    (w : World) : List Sample :=
  historyFrom source settings directory output (sampleNames directory (prepared output w))
    (prepared output w)

theorem collect_of_not_directory (h : ¬w.isDirectory directory = true) :
    collect source settings directory output w =
      (.error (.refused (.noDirectory (Encoding.Utf8.decode directory))), w) := by
  unfold collect
  rw [World.bind_isDirectory (Bool.eq_false_iff.2 h)]
  rfl

section
variable (hdir : w.isDirectory directory = true)
include hdir

theorem collect_of_unmadeArguments {e : FileError}
    (hargs : World.makeDirectory (argumentsDirectory output) w = (.error e, w₁)) :
    collect source settings directory output w = (.error (.refused (.failed e.message)), w₁) := by
  unfold collect
  rw [World.bind_isDirectory hdir, Bool.not_true, if_neg Bool.false_ne_true,
    World.bind_makeDirectory hargs]
  rfl

theorem collect_of_unmadeRevealed {e : FileError}
    (hargs : World.makeDirectory (argumentsDirectory output) w = (.ok (), w₁))
    (hrevealed : World.makeDirectory (revealedDirectory output) w₁ = (.error e, w₂)) :
    collect source settings directory output w = (.error (.refused (.failed e.message)), w₂) := by
  unfold collect
  rw [World.bind_isDirectory hdir, Bool.not_true, if_neg Bool.false_ne_true,
    World.bind_makeDirectory hargs]
  dsimp only
  rw [World.bind_makeDirectory hrevealed]
  rfl

/-- On the machine with both directories a collection is a run over its samples. -/
theorem collect_eq_of_made
    (hargs : World.makeDirectory (argumentsDirectory output) w = (.ok (), w₁))
    (hrevealed : World.makeDirectory (revealedDirectory output) w₁ = (.ok (), w₂))
    (htake : takeAll source settings directory output (sampleNames directory w₂) w₂ = (result, w')) :
    collect source settings directory output w = (result.mapError Stop.fault, w') := by
  -- the directory of the samples is still there
  obtain ⟨place, hplace⟩ := isDirectory_iff.1 hdir
  have hfind := find_of_made hargs hrevealed hplace
  have hlist : w₂.fileNames directory = .ok (w₂.tree.namesIn place) := by
    rw [World.fileNames, hfind]
    rfl
  rw [sampleNames_eq hfind] at htake
  unfold collect
  rw [World.bind_isDirectory hdir, Bool.not_true, if_neg Bool.false_ne_true,
    World.bind_makeDirectory hargs]
  dsimp only
  rw [World.bind_makeDirectory hrevealed]
  dsimp only
  rw [World.bind_fileNames hlist]
  dsimp only
  rw [World.bind_eq htake]
  cases result with
  | error fault => rfl
  | ok c => rfl

theorem collect_eq_takeAll (hargs : (World.makeDirectory (argumentsDirectory output) w).1 = .ok ())
    (hrevealed : (World.makeDirectory (revealedDirectory output)
      (World.makeDirectory (argumentsDirectory output) w).2).1 = .ok ()) :
    collect source settings directory output w =
      let ending := takeAll source settings directory output
        (sampleNames directory (prepared output w)) (prepared output w)
      (ending.1.mapError Stop.fault, ending.2) :=
  collect_eq_of_made hdir (Prod.ext hargs rfl) (Prod.ext hrevealed rfl) (Prod.ext rfl rfl)

end

/-! ## Names of samples -/

theorem sortNames_pairwise {names : List FileName} (nodup : names.Nodup) :
    (sortNames names).Pairwise (· < ·) := by
  have hsorted : (sortNames names).Pairwise (· ≤ ·) := by
    refine (List.pairwise_mergeSort (fun a b c hab hbc => ?_) (fun a b => ?_) names).imp
      fun h => of_decide_eq_true h
    · exact decide_eq_true (List.le_trans (of_decide_eq_true hab) (of_decide_eq_true hbc))
    · simpa using List.le_total a b
  have hnodup : (sortNames names).Nodup := (List.mergeSort_perm _ _).nodup_iff.2 nodup
  exact (hnodup.and hsorted).imp fun h => Std.lt_of_le_of_ne h.2 h.1

section
variable (hargs : World.makeDirectory (argumentsDirectory output) w = (.ok (), w₁))
  (hrevealed : World.makeDirectory (revealedDirectory output) w₁ = (.ok (), w₂))
  (hfind : w.find directory = .ok (place, .directory))
include hargs hrevealed hfind

theorem sampleNames_of_made :
    sampleNames directory w₂ = sortNames (w.tree.namesIn place) := by
  rw [sampleNames_eq (find_of_made hargs hrevealed hfind), namesIn_of_made hargs hrevealed]

theorem noSlash_of_made (hslash : SlashFree w.tree) :
    ∀ name ∈ sampleNames directory w₂, slash ∉ name := by
  intro name hname
  rw [sampleNames_of_made hargs hrevealed hfind] at hname
  exact hslash.of_mem_namesIn (List.mem_mergeSort.1 hname)

end

/-! ## Collections without error -/

/-- What a collection without error has gone through. -/
structure Collected (source : Source (StateM World)) (settings : Settings) (directory output : Path)
    (w w' : World) (c : Collection) (parent place : Place) : Prop where
  found : w.find directory = .ok (place, .directory)
  made : ∃ w₁, World.makeDirectory (argumentsDirectory output) w = (.ok (), w₁) ∧
    World.makeDirectory (revealedDirectory output) w₁ = (.ok (), prepared output w)
  ready : Ready output parent (prepared output w)
  names : sampleNames directory (prepared output w) = sortNames (w.tree.namesIn place)
  verdict : verdict directory (history source settings directory output w) = .ok c
  world : w' = (prepared output w).putFiles (filesOf settings output (prepared output w)
    (history source settings directory output w))

theorem exists_of_collect {c : Collection} (hsource : ReadsOnly source) (hslash : SlashFree w.tree)
    (h : collect source settings directory output w = (.ok c, w')) :
    ∃ parent place, Collected source settings directory output w w' c parent place := by
  by_cases hdir : w.isDirectory directory = true
  · obtain ⟨place, hfound⟩ := isDirectory_iff.1 hdir
    rcases hargs : World.makeDirectory (argumentsDirectory output) w with ⟨e | _, w₁⟩
    · rw [collect_of_unmadeArguments hdir hargs] at h
      cases h
    rcases hrevealed : World.makeDirectory (revealedDirectory output) w₁ with ⟨e | _, w₂⟩
    · rw [collect_of_unmadeRevealed hdir hargs hrevealed] at h
      cases h
    obtain ⟨parent, hready⟩ := exists_ready hargs hrevealed
    have hnames := sampleNames_of_made hargs hrevealed hfound
    have htake : takeAll source settings directory output (sampleNames directory w₂) w₂ = _ :=
      takeAll_eq hsource hready (noSlash_of_made hargs hrevealed hfound hslash) (.refl w₂)
    rw [collect_eq_of_made hdir hargs hrevealed htake] at h
    obtain ⟨hresult, hworld⟩ := Prod.mk.inj h
    obtain rfl : prepared output w = w₂ := prepared_eq hargs hrevealed
    refine ⟨parent, place, hfound, ⟨w₁, hargs, hrevealed⟩, hready, hnames, ?_, hworld.symm⟩
    unfold history
    cases hverdict : verdict directory (historyFrom source settings directory output
        (sampleNames directory (prepared output w)) (prepared output w)) with
    | error fault =>
      rw [hverdict] at hresult
      cases hresult
    | ok c' =>
      rw [hverdict] at hresult
      cases hresult
      rfl
  · rw [collect_of_not_directory hdir] at h
    cases h

namespace Collected

variable {c : Collection} {s : Sample}
  (h : Collected source settings directory output w w' c parent place)
include h

theorem names_history :
    (history source settings directory output w).map Sample.name =
      sortNames (w.tree.namesIn place) := by
  rw [← h.names]
  exact names_eq (verdict_eq_ok_iff.1 h.verdict).1

theorem mem_names (hs : s ∈ history source settings directory output w) :
    s.name ∈ w.tree.namesIn place := by
  have hmem := List.mem_map_of_mem (f := Sample.name) hs
  rw [h.names_history] at hmem
  exact List.mem_mergeSort.1 hmem

theorem sorted :
    ((history source settings directory output w).map Sample.name).Pairwise (· < ·) := by
  rw [h.names_history]
  exact sortNames_pairwise (FileTree.nodup_namesIn _ _)

theorem nodup : ((history source settings directory output w).map Sample.name).Nodup := by
  refine h.sorted.imp fun {a b} hlt => ?_
  rintro rfl
  exact List.lt_irrefl a hlt

theorem exists_result (hs : s ∈ history source settings directory output w) :
    ∃ result, s.result = .ok result := by
  have hnone := (verdict_eq_ok_iff.1 h.verdict).1 s hs
  cases hresult : s.result with
  | error fault => simp [Sample.fault?, hresult] at hnone
  | ok result => exact ⟨result, rfl⟩

variable (hslash : SlashFree w.tree)
include hslash

theorem noSlash (hs : s ∈ history source settings directory output w) : slash ∉ s.name :=
  hslash.of_mem_namesIn (h.mem_names hs)

theorem course (hsource : ReadsOnly source) (hs : s ∈ history source settings directory output w) :
    ∃ o, o = outcome settings output (prepared output w) s.name s.report ∧ o.result = s.result ∧
      Course settings output parent (prepared output w) s.name s.report o := by
  refine ⟨_, rfl, ?_, Samples.course h.ready (h.noSlash hslash hs) s.report⟩
  refine (result_of_mem hsource h.ready ?_ (.refl _) hs).symm
  intro name hname
  rw [h.names] at hname
  exact hslash.of_mem_namesIn (List.mem_mergeSort.1 hname)

theorem result_outcome (hsource : ReadsOnly source)
    (hs : s ∈ history source settings directory output w) :
    ∃ result, (outcome settings output (prepared output w) s.name s.report).result = .ok result := by
  obtain ⟨result, hresult⟩ := h.exists_result hs
  obtain ⟨o, rfl, heq, -⟩ := h.course hslash hsource hs
  exact ⟨result, heq.trans hresult⟩

/-- The files of a sample that is written hold what the last sample with these files tells. -/
theorem files_of_written (hsource : ReadsOnly source)
    (hs : s ∈ history source settings directory output w) {target : Path}
    (hresult : s.result = .ok (.ok target)) :
    target = revealedPath output s.name ∧ (∃ own, s.arguments = .ok own) ∧
      ∃ arguments revealed,
        lastArguments? (history source settings directory output w) s.name = some arguments ∧
        Script.reveal settings arguments = .ok revealed ∧
        w'.locate (argumentsPath output s.name) = .ok (argumentsPlace parent s.name) ∧
        w'.tree.node? (argumentsPlace parent s.name) =
          some (.file (Encoding.Utf8.encode arguments)) ∧
        w'.locate target = .ok (revealedPlace parent s.name) ∧
        w'.tree.node? (revealedPlace parent s.name) =
          some (.file (Encoding.Utf8.encode (revealed.output ++ ['\n']))) := by
  have hnames := fun s hs => h.noSlash hslash (s := s) hs
  have hresults := fun s hs => h.result_outcome hslash hsource (s := s) hs
  have hkeeps : (prepared output w).Keeps w' := h.world ▸ keeps_filesOf h.ready hnames
  obtain ⟨o, -, heq, hcourse⟩ := h.course hslash hsource hs
  rw [hresult] at heq
  cases hcourse with
  | unread | refused | stopped | half => cases heq
  | @whole own _ hread hfirst hreveal hsecond =>
    cases heq
    obtain ⟨arguments, hlast⟩ := exists_lastArguments hs hread
    obtain ⟨revealed, hrevealed⟩ := exists_revealed_of_mem h.ready hnames hfirst hresults
      (List.mem_of_getLast? hlast)
    have hnode : w'.tree.node? (argumentsPlace parent s.name) =
        some (.file (Encoding.Utf8.encode arguments)) := by
      rw [h.world, node?_argumentsPlace h.ready hnames hfirst, hlast]
      rfl
    have hnode' : w'.tree.node? (revealedPlace parent s.name) =
        some (.file (Encoding.Utf8.encode (revealed.output ++ ['\n']))) := by
      rw [h.world, node?_revealedPlace h.ready hnames hfirst hsecond hresults, hlast,
        Option.bind_some, revealedBytes?_of_ok hrevealed]
      rfl
    rw [← h.ready.fileAt_argumentsPath hkeeps (hnames s hs)] at hfirst
    rw [← h.ready.fileAt_revealedPath hkeeps (hnames s hs)] at hsecond
    exact ⟨rfl, ⟨own, hread⟩, arguments, revealed, hlast, hrevealed,
      (World.fileAt_eq_ok_iff.1 hfirst).1, hnode, (World.fileAt_eq_ok_iff.1 hsecond).1, hnode'⟩

end Collected

/-! ## The account of a collection -/

/-- A collection tells of every sample of its directory, and the files hold what it tells. -/
structure Accounts (source : Source (StateM World)) (settings : Settings) (directory output : Path)
    (w w' : World) (samples : List Sample) (c : Collection) : Prop where
  /-- The samples are the files of the directory, … -/
  files : ∃ place, w.find directory = .ok (place, .directory) ∧
    ∀ name, name ∈ samples.map Sample.name ↔
      ∃ content, w.tree.node? (place ++ [name]) = some (.file content)
  /-- … each of them once, in order. -/
  sorted : (samples.map Sample.name).Pairwise (· < ·)
  /-- The source reports on each of them on the machine behind the samples before it. -/
  reports : ∀ before s behind, samples = before ++ s :: behind →
    s.report = (source (joinPath directory s.name)
      (takeAll source settings directory output (before.map Sample.name) (prepared output w)).2).1
  /-- Each of them is written or skipped. -/
  complete : ∀ s ∈ samples, ∃ result, s.result = .ok result
  written : c.written = samples.filterMap Sample.target?
  skipped : c.skipped = (samples.filterMap (Sample.skip? directory)).map Prod.fst
  warnings : c.warnings = (samples.filterMap (Sample.skip? directory)).map Prod.snd
  /--
  Where a sample is written, one file has the arguments of the last sample with the same files, and
  the other one what they do.
  -/
  contents : ∀ s ∈ samples, ∀ target, s.result = .ok (.ok target) →
    target = revealedPath output s.name ∧ (∃ own, s.arguments = .ok own) ∧
      ∃ arguments revealed, lastArguments? samples s.name = some arguments ∧
        Script.reveal settings arguments = .ok revealed ∧
        w'.fileContent (argumentsPath output s.name) = .ok (Encoding.Utf8.encode arguments) ∧
        w'.fileContent target = .ok (Encoding.Utf8.encode (revealed.output ++ ['\n']))
  /-- This is the sample itself, unless another name is read as the same text. -/
  own : ∀ s ∈ samples, (∀ t ∈ samples, nameText t.name = nameText s.name → t.name = s.name) →
    lastArguments? samples s.name = s.arguments.toOption
  /-- Two samples are written to one place exactly if their names are read as the same text. -/
  shared : ∀ s ∈ samples, ∀ t ∈ samples, ∀ target target', s.result = .ok (.ok target) →
    t.result = .ok (.ok target') →
      ∃ p p', w'.locate target = .ok p ∧ w'.locate target' = .ok p' ∧
        (p = p' ↔ nameText s.name = nameText t.name)

/-- **Account.**  Every file of the directory is either written or skipped with a warning. -/
theorem collect_accounts {c : Collection} (hsource : ReadsOnly source) (hslash : SlashFree w.tree)
    (h : collect source settings directory output w = (.ok c, w')) :
    Accounts source settings directory output w w' (history source settings directory output w) c := by
  obtain ⟨parent, place, hcollected⟩ := exists_of_collect hsource hslash h
  obtain rfl := (verdict_eq_ok_iff.1 hcollected.verdict).2
  refine ⟨⟨place, hcollected.found, fun name => ?files⟩, hcollected.sorted,
    fun before s behind => report_of_eq, fun s hs => hcollected.exists_result hs, rfl, rfl, rfl,
    fun s hs target hresult => ?contents, fun s hs halone => ?own,
    fun s hs t ht target target' hresult hresult' => ?shared⟩
  case files =>
    rw [hcollected.names_history, ← FileTree.mem_namesIn]
    exact List.mem_mergeSort
  case contents =>
    obtain ⟨htarget, hown, arguments, revealed, hlast, hreveal, hlocate, hnode, hlocate', hnode'⟩ :=
      hcollected.files_of_written hslash hsource hs hresult
    exact ⟨htarget, hown, arguments, revealed, hlast, hreveal,
      World.fileContent_eq hlocate hnode, World.fileContent_eq hlocate' hnode'⟩
  case own =>
    exact lastArguments?_of_alone hcollected.nodup hs halone
  case shared =>
    obtain ⟨-, -, _, _, -, -, -, -, hlocate, -⟩ :=
      hcollected.files_of_written hslash hsource hs hresult
    obtain ⟨-, -, _, _, -, -, -, -, hlocate', -⟩ :=
      hcollected.files_of_written hslash hsource ht hresult'
    exact ⟨_, _, hlocate, hlocate', revealedPlace_eq_iff⟩

open Encoding.Utf8 (bytes)

def pair : World where
  tree := {
    nodes := [([bytes "in"], .directory), ([bytes "in", bytes "a"], .file []),
      ([bytes "in", bytes "b"], .file [])]
    nodup := by decide }
  here := []
  input := []

/-- A source that tells the arguments of `a`, and none of other samples. -/
def pairSource : Source (StateM World) := fun path =>
  pure (.ok (if path = bytes "in/a" then
      "\x7b\"data\": \x7b\"command_line_arguments\": \"echo 1\"\x7d\x7d".toList
    else "\x7b\x7d".toList))

theorem collect_accounts_pair :
    (collect pairSource {} (bytes "in") (bytes "out") pair).1 =
        .ok ⟨[bytes "out/deobfuscated/a.txt"], [bytes "in/b"], [.noArguments "b".toList]⟩ ∧
      Accounts pairSource {} (bytes "in") (bytes "out") pair
        (collect pairSource {} (bytes "in") (bytes "out") pair).2
        (history pairSource {} (bytes "in") (bytes "out") pair)
        ⟨[bytes "out/deobfuscated/a.txt"], [bytes "in/b"], [.noArguments "b".toList]⟩ := by
  have hnames : sampleNames (bytes "in") (prepared (bytes "out") pair) = [bytes "a", bytes "b"] :=
    sampleNames_of_sorted (by decide +kernel) (by decide)
  have hresult : (collect pairSource {} (bytes "in") (bytes "out") pair).1 =
      .ok ⟨[bytes "out/deobfuscated/a.txt"], [bytes "in/b"], [.noArguments "b".toList]⟩ := by
    rw [collect_eq_takeAll (by decide +kernel) (by decide +kernel) (by decide +kernel), hnames]
    decide +kernel
  exact ⟨hresult, collect_accounts (fun _ _ => rfl) (slashFree_of_all (by decide +kernel))
    (Prod.ext hresult rfl)⟩

/-- A source that takes what a file holds as the report on it. -/
def contentSource : Source (StateM World) := fun path => do
  match ← Host.readFile path with
  | .error e => return .error (.failed e.message)
  | .ok content => return .ok (Encoding.Utf8.decode content)

def reportOn (quoted : String) : Bytes :=
  bytes "\x7b\"data\": \x7b\"command_line_arguments\": \"" ++ bytes quoted ++ bytes "\"\x7d\x7d"

/-- A machine with two samples whose names are read as the same text. -/
def sharing : World where
  tree := {
    nodes := [([bytes "in"], .directory),
      ([bytes "in", [0x61, 0xFE]], .file (reportOn "echo 1")),
      ([bytes "in", [0x61, 0xFF]], .file (reportOn "echo 2"))]
    nodup := by decide }
  here := []
  input := []

/-- A machine with the samples `a` and `a.txt` where the arguments of samples are written. -/
def nested : World where
  tree := {
    nodes := [([bytes "out"], .directory), ([bytes "out", bytes "original"], .directory),
      ([bytes "out", bytes "original", bytes "a"], .file (reportOn
        "\x7b\\\"data\\\": \x7b\\\"command_line_arguments\\\": \\\"echo 9\\\"\x7d\x7d")),
      ([bytes "out", bytes "original", bytes "a.txt"], .file (reportOn "echo 2"))]
    nodup := by decide }
  here := []
  input := []

/--
A collection loses what a sample tells: where another sample is written to the same place, and
where it is written to the sample itself before its turn comes.
-/
theorem collect_loses_samples :
    let shared := collect contentSource {} (bytes "in") (bytes "out") sharing
    let overwritten := collect contentSource {} (bytes "out/original") (bytes "out") nested
    (shared.1 = .ok ⟨[bytes "out/deobfuscated/a\uFFFD.txt",
        bytes "out/deobfuscated/a\uFFFD.txt"], [], []⟩ ∧
      shared.2.tree.node? [bytes "out", bytes "original", bytes "a\uFFFD.txt"] =
        some (.file (bytes "echo 2"))) ∧
    overwritten.1 = .ok ⟨[bytes "out/deobfuscated/a.txt",
        bytes "out/deobfuscated/a.txt.txt"], [], []⟩ ∧
      nested.tree.node? [bytes "out", bytes "original", bytes "a.txt"] =
        some (.file (reportOn "echo 2")) ∧
      overwritten.2.tree.node? [bytes "out", bytes "original", bytes "a.txt.txt"] =
        some (.file (bytes "echo 9")) := by
  intro shared overwritten
  have hsharing : sampleNames (bytes "in") (prepared (bytes "out") sharing) =
      [[0x61, 0xFE], [0x61, 0xFF]] :=
    sampleNames_of_sorted (by decide +kernel) (by decide)
  have hnested : sampleNames (bytes "out/original") (prepared (bytes "out") nested) =
      [bytes "a", bytes "a.txt"] :=
    sampleNames_of_sorted (by decide +kernel) (by decide)
  have hshared : shared = _ :=
    collect_eq_takeAll (by decide +kernel) (by decide +kernel) (by decide +kernel)
  have hoverwritten : overwritten = _ :=
    collect_eq_takeAll (by decide +kernel) (by decide +kernel) (by decide +kernel)
  rw [hshared, hoverwritten, hsharing, hnested]
  decide +kernel

end Samples

end Unmask
