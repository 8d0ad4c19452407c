import Unmask.Proofs.Encodings
import Unmask.Proofs.Paths
import Unmask.Samples

/-!
# The files of a sample

A sample writes at most two files, each into a directory of its own.  What comes of it depends on
its report and on the directories of the machine, so it is the same on every machine with the same
directories.  Samples whose names are read as the same text have the same two files.

    writeSample_eq          the result and the files, given the arguments
    takeSample_eq           the result and the files, given the report
    outcome_congr           they depend on directories only
    course                  how far a sample gets
    Course.place_of_mem     a sample writes to its own places only
    Course.writtenTo_argumentsPlace, Course.writtenTo_revealedPlace
                            what it writes there
-/

namespace Unmask

namespace Samples

open FileTree (IsEntry)

/-! ## Sources -/

/-- A source that only looks at the machine. -/
def ReadsOnly (source : Source (StateM World)) : Prop :=
  ∀ path, World.Looks (source path)

/-- Reports that a program writes only look at the machine if the program does. -/
theorem readsOnly_reader {launch : Launcher (StateM World)} {settings : Settings}
    (h : ∀ arguments, World.Looks (launch settings.readerProgram arguments)) :
    ReadsOnly (reader launch settings) := by
  intro path
  unfold reader
  refine (h _).bind fun result w => ?_
  cases result with
  | error e => rfl
  | ok finished =>
    dsimp only
    split <;> rfl

/-! ## The files of a sample -/

theorem slash_notMem_fileName {name : FileName} (h : slash ∉ name) : slash ∉ fileName name := by
  intro hmem
  have hread : '/' ∈ nameText name ++ ".txt".toList :=
    Encoding.Utf8.mem_of_mem_encode (by decide) hmem
  rcases List.mem_append.1 hread with hread | hread
  · exact h (Encoding.Utf8.mem_of_mem_decode (by decide) (by decide) hread)
  · exact absurd hread (by decide)

theorem isEntry_fileName {name : FileName} (h : slash ∉ name) : IsEntry (fileName name) := by
  have hlast : (fileName name).getLast? = some 0x74 := by
    rw [fileName, Encoding.Utf8.encode_append]
    exact List.getLast?_append_of_ne_nil _ (by decide)
  refine ⟨?_, ?_, ?_, slash_notMem_fileName h⟩
  · intro e
    rw [e] at hlast
    cases hlast
  · intro e
    rw [e] at hlast
    exact absurd hlast (by decide)
  · intro e
    rw [e] at hlast
    exact absurd hlast (by decide)

/-- The files of two samples have the same name if their names are read as the same text. -/
theorem fileName_eq_iff {a b : FileName} : fileName a = fileName b ↔ nameText a = nameText b := by
  constructor
  · intro h
    have hread := congrArg Encoding.Utf8.decode h
    rw [fileName, fileName, Encoding.Utf8.decode_encode, Encoding.Utf8.decode_encode] at hread
    exact List.append_cancel_right hread
  · intro h
    rw [fileName, fileName, h]

def argumentsPath (output : Path) (name : FileName) : Path :=
  joinPath (argumentsDirectory output) (fileName name)

def revealedPath (output : Path) (name : FileName) : Path :=
  joinPath (revealedDirectory output) (fileName name)

def argumentsRoot (parent : Place) : Place :=
  parent ++ [Encoding.Utf8.bytes "original"]

def revealedRoot (parent : Place) : Place :=
  parent ++ [Encoding.Utf8.bytes "deobfuscated"]

def argumentsPlace (parent : Place) (name : FileName) : Place :=
  argumentsRoot parent ++ [fileName name]

def revealedPlace (parent : Place) (name : FileName) : Place :=
  revealedRoot parent ++ [fileName name]

theorem argumentsRoot_ne_revealedRoot (parent : Place) :
    argumentsRoot parent ≠ revealedRoot parent := by
  intro h
  have := List.append_cancel_left h
  exact absurd this (by decide)

theorem dropLast_argumentsPlace (parent : Place) (name : FileName) :
    (argumentsPlace parent name).dropLast = argumentsRoot parent :=
  List.dropLast_concat

theorem dropLast_revealedPlace (parent : Place) (name : FileName) :
    (revealedPlace parent name).dropLast = revealedRoot parent :=
  List.dropLast_concat

theorem argumentsPlace_ne_revealedPlace (parent : Place) (a b : FileName) :
    argumentsPlace parent a ≠ revealedPlace parent b := by
  intro h
  have := congrArg List.dropLast h
  rw [dropLast_argumentsPlace, dropLast_revealedPlace] at this
  exact argumentsRoot_ne_revealedRoot parent this

theorem argumentsPlace_eq_iff {parent : Place} {a b : FileName} :
    argumentsPlace parent a = argumentsPlace parent b ↔ nameText a = nameText b := by
  rw [← fileName_eq_iff]
  exact ⟨fun h => (List.cons.inj (List.append_cancel_left h)).1, congrArg fun name => _ ++ [name]⟩

theorem revealedPlace_eq_iff {parent : Place} {a b : FileName} :
    revealedPlace parent a = revealedPlace parent b ↔ nameText a = nameText b := by
  rw [← fileName_eq_iff]
  exact ⟨fun h => (List.cons.inj (List.append_cancel_left h)).1, congrArg fun name => _ ++ [name]⟩

theorem argumentsPath_congr {a b : FileName} (h : nameText a = nameText b) (output : Path) :
    argumentsPath output a = argumentsPath output b := by
  unfold argumentsPath
  rw [fileName_eq_iff.2 h]

theorem revealedPath_congr {a b : FileName} (h : nameText a = nameText b) (output : Path) :
    revealedPath output a = revealedPath output b := by
  unfold revealedPath
  rw [fileName_eq_iff.2 h]

/-- The places that a sample may write to. -/
def IsPlaceOf (parent : Place) (name : FileName) (place : Place) : Prop :=
  place = argumentsPlace parent name ∨ place = revealedPlace parent name

theorem IsPlaceOf.nameText_eq {parent place : Place} {a b : FileName} (ha : IsPlaceOf parent a place)
    (hb : IsPlaceOf parent b place) : nameText a = nameText b := by
  rcases ha with ha | ha <;> rcases hb with hb | hb
  · exact argumentsPlace_eq_iff.1 (ha.symm.trans hb)
  · exact absurd (ha.symm.trans hb) (argumentsPlace_ne_revealedPlace _ _ _)
  · exact absurd (hb.symm.trans ha) (argumentsPlace_ne_revealedPlace _ _ _)
  · exact revealedPlace_eq_iff.1 (ha.symm.trans hb)

theorem IsPlaceOf.length_eq {parent place : Place} {name : FileName} (h : IsPlaceOf parent name place) :
    place.length = parent.length + 2 := by
  rcases h with rfl | rfl
  · simp [argumentsPlace, argumentsRoot]
  · simp [revealedPlace, revealedRoot]

theorem IsPlaceOf.ne_nil {parent place : Place} {name : FileName} (h : IsPlaceOf parent name place) :
    place ≠ [] := by
  rintro rfl
  have := h.length_eq
  simp at this

theorem IsPlaceOf.dropLast {parent place : Place} {name : FileName} (h : IsPlaceOf parent name place) :
    place.dropLast = argumentsRoot parent ∨ place.dropLast = revealedRoot parent := by
  rcases h with rfl | rfl
  · exact Or.inl (dropLast_argumentsPlace parent name)
  · exact Or.inr (dropLast_revealedPlace parent name)

/-! ## One sample -/

/-- A machine with both directories of `output` in the directory `parent`. -/
structure Ready (output : Path) (parent : Place) (w : World) : Prop where
  arguments : w.find (argumentsDirectory output) = .ok (argumentsRoot parent, .directory)
  revealed : w.find (revealedDirectory output) = .ok (revealedRoot parent, .directory)

/-- What comes of a sample: its result, and the files that are written. -/
structure Outcome where
  result : Except Fault (Except SampleError Path)
  files : List (Place × Bytes)

def attempt (settings : Settings) (output : Path) (w : World) (name : FileName)
    (arguments : Text) : Outcome :=
  match w.fileAt (argumentsPath output name) with
  | .error e => ⟨.ok (.error (.failed e.message)), []⟩
  | .ok place =>
    let first := (place, Encoding.Utf8.encode arguments)
    match Script.reveal settings arguments with
    | .error fault => ⟨.error fault, [first]⟩
    | .ok revealed =>
      match w.fileAt (revealedPath output name) with
      | .error e => ⟨.ok (.error (.failed e.message)), [first]⟩
      | .ok target =>
        ⟨.ok (.ok (revealedPath output name)),
          [first, (target, Encoding.Utf8.encode (revealed.output ++ ['\n']))]⟩

def outcome (settings : Settings) (output : Path) (w : World) (name : FileName)
    (report : Except SampleError Text) : Outcome :=
  match report.bind (readReport name) with
  | .error e => ⟨.ok (.error e), []⟩
  | .ok arguments => attempt settings output w name arguments

variable {source : Source (StateM World)} {settings : Settings} {directory output : Path}
  {name : FileName} {parent : Place} {w₀ w w' : World} {names : List FileName}

namespace Ready

theorem keeps (h : Ready output parent w) (hkeeps : w.Keeps w') : Ready output parent w' :=
  ⟨hkeeps.find h.arguments, hkeeps.find h.revealed⟩

theorem fileAt_argumentsPath (h : Ready output parent w) (hkeeps : w.Keeps w')
    (hname : slash ∉ name) :
    w'.fileAt (argumentsPath output name) = w.fileAt (argumentsPath output name) :=
  hkeeps.fileAt (isEntry_fileName hname) h.arguments

theorem fileAt_revealedPath (h : Ready output parent w) (hkeeps : w.Keeps w')
    (hname : slash ∉ name) :
    w'.fileAt (revealedPath output name) = w.fileAt (revealedPath output name) :=
  hkeeps.fileAt (isEntry_fileName hname) h.revealed

theorem eq_argumentsPlace (h : Ready output parent w) (hname : slash ∉ name) {place : Place}
    (hplace : w.fileAt (argumentsPath output name) = .ok place) :
    place = argumentsPlace parent name ∧ w.tree.node? place ≠ some .directory :=
  World.fileAt_joinPath (isEntry_fileName hname) h.arguments hplace

theorem eq_revealedPlace (h : Ready output parent w) (hname : slash ∉ name) {place : Place}
    (hplace : w.fileAt (revealedPath output name) = .ok place) :
    place = revealedPlace parent name ∧ w.tree.node? place ≠ some .directory :=
  World.fileAt_joinPath (isEntry_fileName hname) h.revealed hplace

end Ready

theorem outcome_congr (hready : Ready output parent w) (hkeeps : w.Keeps w') (hname : slash ∉ name)
    (report : Except SampleError Text) :
    outcome settings output w' name report = outcome settings output w name report := by
  unfold outcome attempt
  rw [hready.fileAt_argumentsPath hkeeps hname, hready.fileAt_revealedPath hkeeps hname]

/-- Writing the arguments and what they do gives the result and the files of the sample. -/
theorem writeSample_eq (hready : Ready output parent w) (hname : slash ∉ name) (arguments : Text) :
    (writeSample settings output name arguments : StateM World _) w =
      ((attempt settings output w name arguments).result,
        w.putFiles (attempt settings output w name arguments).files) := by
  have hargumentsPath : joinPath (argumentsDirectory output) (fileName name) =
      argumentsPath output name := rfl
  have hrevealedPath : joinPath (revealedDirectory output) (fileName name) =
      revealedPath output name := rfl
  unfold writeSample attempt
  simp only [hargumentsPath, hrevealedPath]
  cases hfirst : w.fileAt (argumentsPath output name) with
  | error e =>
    rw [World.bind_writeFile (World.writeFile_of_error hfirst)]
    rfl
  | ok place =>
    rw [World.bind_writeFile (World.writeFile_of_ok hfirst)]
    dsimp only
    cases Script.reveal settings arguments with
    | error fault => rfl
    | ok revealed =>
      -- the arguments are no directory, so the second path leads where it led
      have hkeeps : w.Keeps (w.putFile place (Encoding.Utf8.encode arguments)) :=
        .putFile (hready.eq_argumentsPlace hname hfirst).2 _
      have hsecond := hready.fileAt_revealedPath hkeeps hname
      dsimp only
      cases htarget : w.fileAt (revealedPath output name) with
      | error e =>
        rw [World.bind_writeFile (World.writeFile_of_error (hsecond.trans htarget))]
        rfl
      | ok target =>
        rw [World.bind_writeFile (World.writeFile_of_ok (hsecond.trans htarget))]
        rfl

/-- Taking a sample gives its result and writes its files. -/
theorem takeSample_eq (hsource : ReadsOnly source) (hready : Ready output parent w)
    (hname : slash ∉ name) :
    takeSample source settings directory output name w =
      ((outcome settings output w name (source (joinPath directory name) w).1).result,
        w.putFiles (outcome settings output w name (source (joinPath directory name) w).1).files) := by
  have hreport : source (joinPath directory name) w =
      ((source (joinPath directory name) w).1, w) := Prod.ext rfl (hsource _ w)
  unfold takeSample outcome
  rw [World.bind_eq hreport]
  cases (source (joinPath directory name) w).1 with
  | error e => rfl
  | ok report =>
    dsimp only [Except.bind]
    cases readReport name report with
    | error e => rfl
    | ok arguments => exact writeSample_eq hready hname arguments

/-! ## The files that a sample writes -/

/-- What is written to tell what some arguments do, unless there is a fault. -/
def revealedBytes? (settings : Settings) (arguments : Text) : Option Bytes :=
  (Script.reveal settings arguments).toOption.map fun revealed =>
    Encoding.Utf8.encode (revealed.output ++ ['\n'])

theorem revealedBytes?_of_error {arguments : Text} {fault : Fault}
    (h : Script.reveal settings arguments = .error fault) : revealedBytes? settings arguments = none := by
  unfold revealedBytes?
  rw [h]
  rfl

theorem revealedBytes?_of_ok {arguments : Text} {revealed : Revealed}
    (h : Script.reveal settings arguments = .ok revealed) :
    revealedBytes? settings arguments = some (Encoding.Utf8.encode (revealed.output ++ ['\n'])) := by
  unfold revealedBytes?
  rw [h]
  rfl

def argumentsFile (parent : Place) (name : FileName) (arguments : Text) : Place × Bytes :=
  (argumentsPlace parent name, Encoding.Utf8.encode arguments)

def revealedFile (parent : Place) (name : FileName) (revealed : Revealed) : Place × Bytes :=
  (revealedPlace parent name, Encoding.Utf8.encode (revealed.output ++ ['\n']))

/-- How far a sample gets. -/
inductive Course (settings : Settings) (output : Path) (parent : Place) (w : World)
    (name : FileName)
    (report : Except SampleError Text) : Outcome → Prop
  /-- There are no arguments. -/
  | unread {e : SampleError} (hread : report.bind (readReport name) = .error e) :
      Course settings output parent w name report ⟨.ok (.error e), []⟩
  /-- The arguments cannot be written. -/
  | refused {arguments : Text} {e : FileError}
      (hread : report.bind (readReport name) = .ok arguments)
      (hfirst : w.fileAt (argumentsPath output name) = .error e) :
      Course settings output parent w name report ⟨.ok (.error (.failed e.message)), []⟩
  /-- There is a fault in what they do. -/
  | stopped {arguments : Text} {fault : Fault}
      (hread : report.bind (readReport name) = .ok arguments)
      (hfirst : w.fileAt (argumentsPath output name) = .ok (argumentsPlace parent name))
      (hreveal : Script.reveal settings arguments = .error fault) :
      Course settings output parent w name report
        ⟨.error fault, [argumentsFile parent name arguments]⟩
  /-- What they do cannot be written. -/
  | half {arguments : Text} {revealed : Revealed} {e : FileError}
      (hread : report.bind (readReport name) = .ok arguments)
      (hfirst : w.fileAt (argumentsPath output name) = .ok (argumentsPlace parent name))
      (hreveal : Script.reveal settings arguments = .ok revealed)
      (hsecond : w.fileAt (revealedPath output name) = .error e) :
      Course settings output parent w name report
        ⟨.ok (.error (.failed e.message)), [argumentsFile parent name arguments]⟩
  /-- Both are written. -/
  | whole {arguments : Text} {revealed : Revealed}
      (hread : report.bind (readReport name) = .ok arguments)
      (hfirst : w.fileAt (argumentsPath output name) = .ok (argumentsPlace parent name))
      (hreveal : Script.reveal settings arguments = .ok revealed)
      (hsecond : w.fileAt (revealedPath output name) = .ok (revealedPlace parent name)) :
      Course settings output parent w name report
        ⟨.ok (.ok (revealedPath output name)),
          [argumentsFile parent name arguments, revealedFile parent name revealed]⟩

theorem course (hready : Ready output parent w) (hname : slash ∉ name)
    (report : Except SampleError Text) :
    Course settings output parent w name report (outcome settings output w name report) := by
  unfold outcome
  cases hread : report.bind (readReport name) with
  | error e => exact .unread hread
  | ok arguments =>
    dsimp only
    unfold attempt
    cases hfirst : w.fileAt (argumentsPath output name) with
    | error e => exact .refused hread hfirst
    | ok place =>
      obtain ⟨rfl, -⟩ := hready.eq_argumentsPlace hname hfirst
      dsimp only
      cases hreveal : Script.reveal settings arguments with
      | error fault => exact .stopped hread hfirst hreveal
      | ok revealed =>
        dsimp only
        cases hsecond : w.fileAt (revealedPath output name) with
        | error e => exact .half hread hfirst hreveal hsecond
        | ok target =>
          obtain ⟨rfl, -⟩ := hready.eq_revealedPlace hname hsecond
          exact .whole hread hfirst hreveal hsecond

namespace Course

variable {report : Except SampleError Text} {o : Outcome}

/-- A sample writes to its own places only, and no directory is there. -/
theorem place_of_mem (h : Course settings output parent w name report o) {file : Place × Bytes}
    (hfile : file ∈ o.files) :
    IsPlaceOf parent name file.1 ∧ w.tree.node? file.1 ≠ some .directory := by
  have hargs : w.fileAt (argumentsPath output name) = .ok (argumentsPlace parent name) →
      ∀ arguments, file = argumentsFile parent name arguments →
        IsPlaceOf parent name file.1 ∧ w.tree.node? file.1 ≠ some .directory := by
    rintro hfirst arguments rfl
    exact ⟨Or.inl rfl, (World.fileAt_eq_ok_iff.1 hfirst).2⟩
  cases h with
  | unread hread => cases hfile
  | refused hread hfirst => cases hfile
  | stopped hread hfirst hreveal => exact hargs hfirst _ (List.mem_singleton.1 hfile)
  | half hread hfirst hreveal hsecond => exact hargs hfirst _ (List.mem_singleton.1 hfile)
  | whole hread hfirst hreveal hsecond =>
    rcases List.mem_cons.1 hfile with heq | hmem
    · exact hargs hfirst _ heq
    · obtain rfl := List.mem_singleton.1 hmem
      exact ⟨Or.inr rfl, (World.fileAt_eq_ok_iff.1 hsecond).2⟩

theorem writtenTo_eq_nil (h : Course settings output parent w name report o) {other : FileName}
    (hne : nameText name ≠ nameText other) {place : Place} (hplace : IsPlaceOf parent other place) :
    World.writtenTo place o.files = [] := by
  refine World.writtenTo_eq_nil_iff.2 fun file hfile heq => ?_
  exact hne ((h.place_of_mem hfile).1.nameText_eq (heq ▸ hplace))

theorem writtenTo_argumentsPlace (h : Course settings output parent w name report o) :
    World.writtenTo (argumentsPlace parent name) o.files =
      if w.fileAt (argumentsPath output name) = .ok (argumentsPlace parent name) then
        ((report.bind (readReport name)).toOption.map Encoding.Utf8.encode).toList
      else [] := by
  have hown (arguments : Text) (files : List (Place × Bytes)) :
      World.writtenTo (argumentsPlace parent name) (argumentsFile parent name arguments :: files) =
        Encoding.Utf8.encode arguments :: World.writtenTo (argumentsPlace parent name) files := by
    rw [World.writtenTo_cons]
    exact if_pos rfl
  cases h with
  | unread hread =>
    rw [hread]
    exact (ite_self _).symm
  | refused hread hfirst =>
    rw [hfirst]
    rfl
  | stopped hread hfirst hreveal =>
    rw [hread, if_pos hfirst, hown]
    rfl
  | half hread hfirst hreveal hsecond =>
    rw [hread, if_pos hfirst, hown]
    rfl
  | @whole arguments revealed hread hfirst hreveal hsecond =>
    have hother : World.writtenTo (argumentsPlace parent name)
        [revealedFile parent name revealed] = [] := by
      rw [World.writtenTo_cons]
      exact if_neg (argumentsPlace_ne_revealedPlace parent name name).symm
    rw [hread, if_pos hfirst, hown, hother]
    rfl

theorem writtenTo_revealedPlace (h : Course settings output parent w name report o) :
    World.writtenTo (revealedPlace parent name) o.files =
      if w.fileAt (argumentsPath output name) = .ok (argumentsPlace parent name) ∧
          w.fileAt (revealedPath output name) = .ok (revealedPlace parent name) then
        ((report.bind (readReport name)).toOption.bind (revealedBytes? settings)).toList
      else [] := by
  have hother (arguments : Text) (files : List (Place × Bytes)) :
      World.writtenTo (revealedPlace parent name) (argumentsFile parent name arguments :: files) =
        World.writtenTo (revealedPlace parent name) files := by
    rw [World.writtenTo_cons]
    exact if_neg (argumentsPlace_ne_revealedPlace parent name name)
  cases h with
  | unread hread =>
    rw [hread]
    exact (ite_self _).symm
  | refused hread hfirst =>
    rw [hfirst]
    exact (if_neg nofun).symm
  | stopped hread hfirst hreveal =>
    rw [hread, hother]
    show [] = if _ then ((some _).bind (revealedBytes? settings)).toList else []
    rw [Option.bind_some, revealedBytes?_of_error hreveal]
    exact (ite_self _).symm
  | half hread hfirst hreveal hsecond =>
    rw [hsecond, hother]
    exact (if_neg nofun).symm
  | @whole arguments revealed hread hfirst hreveal hsecond =>
    have hown : World.writtenTo (revealedPlace parent name)
        [revealedFile parent name revealed] =
          [Encoding.Utf8.encode (revealed.output ++ ['\n'])] := by
      rw [World.writtenTo_cons]
      exact if_pos rfl
    rw [hread, if_pos ⟨hfirst, hsecond⟩, hother, hown]
    show _ = ((some arguments).bind (revealedBytes? settings)).toList
    rw [Option.bind_some, revealedBytes?_of_ok hreveal]
    rfl

/-- Where there is no fault, it is revealed what written arguments do. -/
theorem exists_revealed (h : Course settings output parent w name report o)
    {result : Except SampleError Path} {arguments : Text} (hresult : o.result = .ok result)
    (hread : report.bind (readReport name) = .ok arguments)
    (hfirst : w.fileAt (argumentsPath output name) = .ok (argumentsPlace parent name)) :
    ∃ revealed, Script.reveal settings arguments = .ok revealed := by
  cases h with
  | unread hread' => cases hread.symm.trans hread'
  | refused hread' hfirst' => cases hfirst.symm.trans hfirst'
  | stopped => cases hresult
  | half hread' hfirst' hreveal =>
    obtain rfl := Except.ok.inj (hread.symm.trans hread')
    exact ⟨_, hreveal⟩
  | whole hread' hfirst' hreveal =>
    obtain rfl := Except.ok.inj (hread.symm.trans hread')
    exact ⟨_, hreveal⟩

end Course

end Samples

end Unmask
