import Unmask.Proofs.SkippedSamples

/-!
# Collecting again

A second collection over the same directory finds both directories made, the same samples and,
where the same reports are given, writes what has been written already.  So it ends as the first
one, and leaves the machine as it is.  Nothing of this holds for a directory that the first
collection writes to: there the second one finds more samples.

    names_again      the second collection finds the same samples
    takeAll_again    a run over them changes nothing
    collect_again    the second collection ends as the first one
-/

namespace Unmask

namespace Samples

open FileTree (SlashFree slashFree_of_all)
open Encoding.Utf8 (bytes)

variable {source : Source (StateM World)} {settings : Settings} {directory output : Path}
  {parent place : Place} {w w₁ w₂ w' : World} {names : List FileName} {history : List Sample}

/-- Two paths do not lead to one place. -/
def Apart (w : World) (path path' : Path) : Prop :=
  ∀ place, w.locate path = .ok place → w.locate path' ≠ .ok place

theorem apart_of_ne {path path' : Path} (h : w.locate path ≠ w.locate path') :
    Apart w path path' :=
  fun _ hp hp' => h (hp.trans hp'.symm)

/-- A source that does not look at the machine gives the same reports in every run. -/
theorem sameReports_of_fixed (hfixed : ∀ path v v', (source path v).1 = (source path v').1) :
    SameReports (Samples.history source settings directory output w)
      (Samples.history source settings directory output w') := by
  intro s hs t ht hname
  obtain ⟨_, _, hs⟩ := List.append_of_mem hs
  obtain ⟨_, _, ht⟩ := List.append_of_mem ht
  rw [report_of_eq hs, report_of_eq ht, hname]
  exact hfixed _ _ _

/-! ## The machine behind a run -/

section
variable (hready : Ready output parent w) (hnames : ∀ s ∈ history, slash ∉ s.name)
  (hworld : w' = w.putFiles (filesOf settings output w history))
include hready hnames hworld

/-- A directory that nothing is written to has the same samples behind the run. -/
theorem names_again (hargs : Apart w' directory (argumentsDirectory output))
    (hrevealed : Apart w' directory (revealedDirectory output))
    (hfind : w.find directory = .ok (place, .directory)) :
    sampleNames directory w' = sampleNames directory w := by
  have hkeeps : w.Keeps w' := hworld ▸ keeps_filesOf hready hnames
  have hready' := hready.keeps hkeeps
  have hfind' := hkeeps.find hfind
  have hlocate := (World.find_eq_directory_iff.1 hfind').1
  rw [sampleNames_eq hfind', sampleNames_eq hfind, hworld, World.namesIn_putFiles]
  intro file hfile heq
  obtain ⟨s, -, -, hplace, -⟩ := exists_of_mem_filesOf hready hnames hfile
  rcases hplace.dropLast with hroot | hroot
  · refine hargs place hlocate ?_
    rw [← heq, hroot]
    exact (World.find_eq_directory_iff.1 hready'.arguments).1
  · refine hrevealed place hlocate ?_
    rw [← heq, hroot]
    exact (World.find_eq_directory_iff.1 hready'.revealed).1

end

/-- With the same reports a second run over the samples ends as the first and changes nothing. -/
theorem takeAll_again (hsource : ReadsOnly source) (hready : Ready output parent w)
    (hnames : ∀ name ∈ names, slash ∉ name)
    {result : Except Fault Collection}
    (h : takeAll source settings directory output names w = (result, w'))
    (hreports : SameReports (historyFrom source settings directory output names w)
      (historyFrom source settings directory output names w')) :
    takeAll source settings directory output names w' = (result, w') := by
  have hfirst : takeAll source settings directory output names w = _ :=
    takeAll_eq hsource hready hnames (.refl w)
  rw [h] at hfirst
  obtain ⟨hresult, hworld⟩ := Prod.mk.inj hfirst
  have hslash : ∀ s ∈ historyFrom source settings directory output names w, slash ∉ s.name :=
    fun s hs => hnames _ (name_mem hs)
  have hkeeps : w.Keeps w' := hworld ▸ keeps_filesOf hready hslash
  rw [takeAll_eq hsource hready hnames hkeeps,
    history_congr hsource hready hnames (.refl w) hkeeps hreports, ← hresult]
  refine Prod.ext rfl ?_
  dsimp only
  rw [hworld]
  exact World.putFiles_again _ _

section
variable (hsource : ReadsOnly source) (hslash : SlashFree w.tree) {result : Except Stop Collection}
  (h : collect source settings directory output w = (result, w'))
  (happart : Apart w' directory (argumentsDirectory output))
  (happart' : Apart w' directory (revealedDirectory output))
  (hreports : SameReports (Samples.history source settings directory output w)
    (Samples.history source settings directory output w'))
include hsource hslash h happart happart' hreports

/-- The second collection where the first one has made both directories. -/
theorem collect_again_of_made (hdir : w.isDirectory directory = true)
    (hargs : World.makeDirectory (argumentsDirectory output) w = (.ok (), w₁))
    (hrevealed : World.makeDirectory (revealedDirectory output) w₁ = (.ok (), w₂)) :
    collect source settings directory output w' = (result, w') := by
  obtain ⟨place, hfind⟩ := isDirectory_iff.1 hdir
  obtain ⟨parent, hready⟩ := exists_ready hargs hrevealed
  have hfind₂ := find_of_made hargs hrevealed hfind
  have hnoSlash := noSlash_of_made hargs hrevealed hfind hslash
  -- the first run over the samples
  have htake : takeAll source settings directory output (sampleNames directory w₂) w₂ = _ :=
    takeAll_eq hsource hready hnoSlash (.refl w₂)
  rw [collect_eq_of_made hdir hargs hrevealed htake] at h
  obtain ⟨hresult, hworld⟩ := Prod.mk.inj h
  rw [hworld] at htake
  generalize verdict directory
    (historyFrom source settings directory output (sampleNames directory w₂) w₂) = ending
    at htake hresult
  have hslash' : ∀ s ∈ historyFrom source settings directory output (sampleNames directory w₂) w₂,
      slash ∉ s.name := fun s hs => hnoSlash _ (name_mem hs)
  have hkeeps : w₂.Keeps w' := hworld ▸ keeps_filesOf hready hslash'
  have hdirectories : w₂.tree.KeepsDirectories w'.tree := fun p => (hkeeps.directory_iff p).2
  -- the second one
  obtain ⟨hhere, hgrows⟩ := World.makeDirectory_grows (revealedDirectory output) w₁
  rw [hrevealed] at hhere hgrows
  have hargs' : World.makeDirectory (argumentsDirectory output) w' = (.ok (), w') :=
    World.makeDirectory_again hargs (hkeeps.here.trans hhere)
      (fun p hp => hdirectories p (hgrows.keepsDirectories p hp)) (Or.inl rfl)
  have hrevealed' : World.makeDirectory (revealedDirectory output) w' = (.ok (), w') :=
    World.makeDirectory_again hrevealed hkeeps.here hdirectories (Or.inl rfl)
  have hnames' := names_again hready hslash' hworld.symm happart happart' hfind₂
  unfold Samples.history at hreports
  rw [prepared_eq hargs hrevealed, prepared_eq hargs' hrevealed', hnames'] at hreports
  have hagain := takeAll_again hsource hready hnoSlash htake hreports
  rw [← hnames'] at hagain
  rw [← hresult]
  exact collect_eq_of_made (isDirectory_iff.2 ⟨place, hkeeps.find hfind₂⟩) hargs' hrevealed' hagain

end

end Samples

end Unmask
