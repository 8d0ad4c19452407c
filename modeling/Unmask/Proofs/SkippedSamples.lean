import Mathlib.Order.Basic
import Unmask.Proofs.Collections

/-!
# Skipped samples

A sample is skipped for want of arguments, or because one of its two files cannot be written.  In
the last case the other file may have been written before: the arguments stay behind.  And another
sample with the same two files may be written.

    sameFiles_prepared         making the directories does not touch the files of samples
    sameFiles_iff_places       only the places of a sample may be written to
    sameFiles_iff              which samples have the same files as before
    overwritten_iff_of_alone   what a sample that is skipped leaves behind by itself
    collect_skipped_iff        which samples that are skipped leave their files as they were
-/

namespace Unmask

namespace Samples

open FileTree (SlashFree dots slashFree_of_all)
open Encoding.Utf8 (bytes)

variable {source : Source (StateM World)} {settings : Settings} {directory output : Path}
  {name : FileName} {parent place : Place} {w w' made : World} {c : Collection} {s : Sample}

/-- Two machines have the same at the places of a sample, and below them. -/
def SameFiles (parent : Place) (name : FileName) (w w' : World) : Prop :=
  ∀ p, argumentsPlace parent name <+: p ∨ revealedPlace parent name <+: p →
    w'.tree.node? p = w.tree.node? p

/--
The arguments of a sample can be written and are something new, but what they do cannot be
written.
-/
def HalfWritten (output : Path) (parent : Place) (w : World) (s : Sample) : Prop :=
  ∃ arguments e, s.arguments = .ok arguments ∧
    w.fileAt (argumentsPath output s.name) = .ok (argumentsPlace parent s.name) ∧
    w.fileAt (revealedPath output s.name) = .error e ∧
    w.tree.node? (argumentsPlace parent s.name) ≠
      some (.file (Encoding.Utf8.encode arguments))

/--
The arguments of the last of the samples with the files of `name` can be written and are something
new, or so is what they do.
-/
def Overwritten (settings : Settings) (output : Path) (parent : Place) (samples : List Sample)
    (w : World) (name : FileName) : Prop :=
  ∃ arguments revealed, lastArguments? samples name = some arguments ∧
    Script.reveal settings arguments = .ok revealed ∧
    w.fileAt (argumentsPath output name) = .ok (argumentsPlace parent name) ∧
    (w.tree.node? (argumentsPlace parent name) ≠ some (.file (Encoding.Utf8.encode arguments)) ∨
      w.fileAt (revealedPath output name) = .ok (revealedPlace parent name) ∧
        w.tree.node? (revealedPlace parent name) ≠
          some (.file (Encoding.Utf8.encode (revealed.output ++ ['\n']))))

/-! ## Directories that are made -/

/-- A path that never goes up makes nothing where a longer path than its own leads to. -/
theorem node?_of_makeDirectory {path : Path} (hdots : dots ∉ Text.fields (· == slash) path)
    (h : World.makeDirectory path w = (.ok (), made))
    (hfind : made.find path = .ok (place, .directory)) {p : Place}
    (hlength : place.length < p.length) : made.tree.node? p = w.tree.node? p := by
  obtain ⟨-, hgrows⟩ := World.makeDirectory_grows path w
  rw [h] at hgrows
  rcases hgrows p with heq | ⟨hnone, hnew⟩
  · exact heq
  · have hlead := World.isPrefix_of_makeDirectory hdots h hfind hnone hnew
    have := hlead.length_le
    omega

theorem Collected.sameFiles_prepared
    (h : Collected source settings directory output w w' c parent place)
    (hdots : dots ∉ Text.fields (· == slash) output) (name : FileName) :
    SameFiles parent name w (prepared output w) := by
  obtain ⟨w₁, hargs, hrevealed⟩ := h.made
  have hdotsArgs : dots ∉ Text.fields (· == slash) (argumentsDirectory output) := by
    intro hmem
    rcases mem_fields_joinPath isEntry_original hmem with hmem | heq
    · exact hdots hmem
    · exact absurd heq (by decide)
  have hdotsRevealed : dots ∉ Text.fields (· == slash) (revealedDirectory output) := by
    intro hmem
    rcases mem_fields_joinPath isEntry_deobfuscated hmem with hmem | heq
    · exact hdots hmem
    · exact absurd heq (by decide)
  intro p hp
  have hlength : parent.length + 2 ≤ p.length := by
    rcases hp with hp | hp
    · exact (IsPlaceOf.length_eq (Or.inl rfl)).symm.trans_le hp.length_le
    · exact (IsPlaceOf.length_eq (Or.inr rfl)).symm.trans_le hp.length_le
  have hsecond := node?_of_makeDirectory hdotsRevealed hrevealed h.ready.revealed (p := p)
    (by simp [revealedRoot]; omega)
  have hfirst := node?_of_makeDirectory hdotsArgs hargs (find_of_ready hargs hrevealed h.ready)
    (p := p) (by simp [argumentsRoot]; omega)
  exact hsecond.trans hfirst

/-! ## What is left behind -/

namespace Collected

variable (h : Collected source settings directory output w w' c parent place)
  (hsource : ReadsOnly source) (hslash : SlashFree w.tree)
include h hslash

/-- Only the two places themselves may be written to. -/
theorem sameFiles_iff_places (name : FileName) :
    SameFiles parent name (prepared output w) w' ↔
      w'.tree.node? (argumentsPlace parent name) =
          (prepared output w).tree.node? (argumentsPlace parent name) ∧
        w'.tree.node? (revealedPlace parent name) =
          (prepared output w).tree.node? (revealedPlace parent name) := by
  have hnames := fun s hs => h.noSlash hslash (s := s) hs
  refine ⟨fun hsame => ⟨hsame _ (Or.inl List.prefix_rfl), hsame _ (Or.inr List.prefix_rfl)⟩, ?_⟩
  rintro ⟨harguments, hrevealed⟩ p (hp | hp)
  · by_cases heq : p = argumentsPlace parent name
    · rw [heq, harguments]
    · rw [h.world, node?_below h.ready hnames (Or.inl rfl) hp heq]
  · by_cases heq : p = revealedPlace parent name
    · rw [heq, hrevealed]
    · rw [h.world, node?_below h.ready hnames (Or.inr rfl) hp heq]

include hsource

/-- Nothing is written but what the last sample with these files tells. -/
theorem sameFiles_iff (name : FileName) :
    SameFiles parent name (prepared output w) w' ↔
      ¬Overwritten settings output parent (history source settings directory output w)
        (prepared output w) name := by
  have hnames := fun s hs => h.noSlash hslash (s := s) hs
  have hresults := fun s hs => h.result_outcome hslash hsource (s := s) hs
  rw [h.sameFiles_iff_places hslash]
  by_cases hfirst : (prepared output w).fileAt (argumentsPath output name) =
      .ok (argumentsPlace parent name)
  case neg =>
    refine iff_of_true ⟨?_, ?_⟩ fun ⟨_, _, _, _, hfirst', _⟩ => hfirst hfirst'
    · rw [h.world, node?_argumentsPlace_of_refused h.ready hnames hfirst]
    · rw [h.world, node?_revealedPlace_of_refused h.ready hnames fun hboth => hfirst hboth.1]
  -- what is found at the second place, which may be one that cannot be written to
  have hsecond : w'.tree.node? (revealedPlace parent name) =
      if (prepared output w).fileAt (revealedPath output name) =
          .ok (revealedPlace parent name) then
        (((lastArguments? (history source settings directory output w) name).bind
          (revealedBytes? settings)).map .file).or
            ((prepared output w).tree.node? (revealedPlace parent name))
      else (prepared output w).tree.node? (revealedPlace parent name) := by
    split
    · next hsecond => rw [h.world, node?_revealedPlace h.ready hnames hfirst hsecond hresults]
    · next hsecond =>
      rw [h.world, node?_revealedPlace_of_refused h.ready hnames fun hboth => hsecond hboth.2]
  rw [hsecond, h.world, node?_argumentsPlace h.ready hnames hfirst]
  unfold Overwritten
  cases hlast : lastArguments? (history source settings directory output w) name with
  | none => simp
  | some arguments =>
    obtain ⟨revealed, hreveal⟩ := exists_revealed_of_mem h.ready hnames hfirst hresults
      (List.mem_of_getLast? hlast)
    rw [Option.bind_some, revealedBytes?_of_ok hreveal]
    split
    · next hsecond => simp [hfirst, hreveal, hsecond, eq_comm]
    · next hsecond => simp [hfirst, hreveal, hsecond, eq_comm]

/-- A sample that is skipped and alone has its files leaves its arguments behind at most. -/
theorem overwritten_iff_of_alone (hs : s ∈ history source settings directory output w)
    {e : SampleError} (hresult : s.result = .ok (.error e))
    (halone : ∀ t ∈ history source settings directory output w,
      nameText t.name = nameText s.name → t.name = s.name) :
    Overwritten settings output parent (history source settings directory output w)
        (prepared output w) s.name ↔
      HalfWritten output parent (prepared output w) s := by
  have hlast := lastArguments?_of_alone h.nodup hs halone
  obtain ⟨o, -, heq, hcourse⟩ := h.course hslash hsource hs
  rw [hresult] at heq
  unfold Overwritten HalfWritten
  rw [hlast]
  cases hcourse with
  | unread hread => simp [Sample.arguments, hread, Except.toOption]
  | refused hread hfirst => simp [hfirst]
  | stopped | whole => cases heq
  | half hread hfirst hreveal hsecond =>
    simp [Sample.arguments, hread, Except.toOption, hfirst, hreveal, hsecond]

end Collected

/-! ## The account of a sample that is skipped -/

/-- When a sample of some others that is skipped has its files as they were. -/
structure Skipped (settings : Settings) (output : Path) (parent : Place) (samples : List Sample)
    (w w' : World) (s : Sample) : Prop where
  /-- They are as they were unless something new is written to them for the last such sample. -/
  made : SameFiles parent s.name (prepared output w) w' ↔
    ¬Overwritten settings output parent samples (prepared output w) s.name
  /-- Making the directories changes neither file, unless the path goes up. -/
  start : dots ∉ Text.fields (· == slash) output →
    (SameFiles parent s.name w w' ↔
      ¬Overwritten settings output parent samples (prepared output w) s.name)
  /-- If the sample has them for itself, its arguments are written and what they do cannot be. -/
  alone : (∀ t ∈ samples, nameText t.name = nameText s.name → t.name = s.name) →
    (Overwritten settings output parent samples (prepared output w) s.name ↔
      HalfWritten output parent (prepared output w) s)

/-- The samples that a collection skips, and what they leave behind. -/
theorem collect_skipped_iff (hsource : ReadsOnly source) (hslash : SlashFree w.tree)
    (h : collect source settings directory output w = (.ok c, w')) :
    ∃ parent, Ready output parent (prepared output w) ∧
      ∀ path ∈ c.skipped, ∃ s ∈ history source settings directory output w,
        path = joinPath directory s.name ∧
        Skipped settings output parent (history source settings directory output w) w w' s := by
  obtain ⟨parent, place, hcollected⟩ := exists_of_collect hsource hslash h
  obtain rfl := (verdict_eq_ok_iff.1 hcollected.verdict).2
  refine ⟨parent, hcollected.ready, fun path hpath => ?_⟩
  obtain ⟨⟨path, e⟩, hskip, rfl⟩ := List.mem_map.1 hpath
  obtain ⟨s, hs, hskip⟩ := List.mem_filterMap.1 hskip
  obtain ⟨hpath, hresult⟩ := Sample.skip?_eq_some_iff.1 hskip
  have hiff := hcollected.sameFiles_iff hsource hslash s.name
  refine ⟨s, hs, hpath, hiff, fun hdots => ?_,
    hcollected.overwritten_iff_of_alone hsource hslash hs hresult⟩
  rw [← hiff]
  have hmade := hcollected.sameFiles_prepared hdots s.name
  exact ⟨fun hsame p hp => (hsame p hp).trans (hmade p hp).symm,
    fun hsame p hp => (hsame p hp).trans (hmade p hp)⟩

/-- A machine with the sample `a`, and a directory where it is to be written what `a` does. -/
def blocked : World where
  tree := {
    nodes := [([bytes "in"], .directory), ([bytes "in", bytes "a"], .file []),
      ([bytes "out"], .directory), ([bytes "out", bytes "deobfuscated"], .directory),
      ([bytes "out", bytes "deobfuscated", bytes "a.txt"], .directory)]
    nodup := by decide }
  here := []
  input := []

theorem collect_skipped_iff_blocked :
    (collect pairSource {} (bytes "in") (bytes "out") blocked).1 =
        .ok ⟨[], [bytes "in/a"], [.failed "Is a directory (os error 21)".toList]⟩ ∧
      ∃ parent, Ready (bytes "out") parent (prepared (bytes "out") blocked) ∧
        ∀ path ∈ [bytes "in/a"],
          ∃ s ∈ history pairSource {} (bytes "in") (bytes "out") blocked,
            path = joinPath (bytes "in") s.name ∧
            Skipped {} (bytes "out") parent
              (history pairSource {} (bytes "in") (bytes "out") blocked) blocked
              (collect pairSource {} (bytes "in") (bytes "out") blocked).2 s := by
  have hresult : (collect pairSource {} (bytes "in") (bytes "out") blocked).1 =
      .ok ⟨[], [bytes "in/a"], [.failed "Is a directory (os error 21)".toList]⟩ := by
    decide +kernel
  exact ⟨hresult, collect_skipped_iff (fun _ _ => rfl) (slashFree_of_all (by decide +kernel))
    (Prod.ext hresult rfl)⟩

/-- The sample `a` is skipped, and its arguments are written where there was nothing. -/
theorem collect_skipped_writes :
    (collect pairSource {} (bytes "in") (bytes "out") blocked).1 =
        .ok ⟨[], [bytes "in/a"], [.failed "Is a directory (os error 21)".toList]⟩ ∧
      blocked.tree.node? [bytes "out", bytes "original", bytes "a.txt"] = none ∧
      (collect pairSource {} (bytes "in") (bytes "out") blocked).2.tree.node?
          [bytes "out", bytes "original", bytes "a.txt"] =
        some (.file (bytes "echo 1")) := by
  decide +kernel

end Samples

end Unmask
