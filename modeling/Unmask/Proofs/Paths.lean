import Unmask.Proofs.FileTrees

/-!
# Paths on a machine

What a path leads to on a modelled machine, and what becomes of it when files are written and
directories are made.

    reach_joinPath       a name behind a path leads one step on
    fileAt_joinPath      the file of that name in a directory
    makeDirectory_again  directories that are made are not made again
    Keeps.fileAt         a write goes where it went as long as the directories stay
-/

namespace Unmask

theorem joinPath_ne_nil (base : Path) {name : FileName} (h : name ≠ []) : joinPath base name ≠ [] := by
  unfold joinPath
  split
  · exact h
  · split
    · exact List.append_ne_nil_of_right_ne_nil _ h
    · exact List.append_ne_nil_of_right_ne_nil _ (List.cons_ne_nil _ _)

theorem joinPath_cases (base : Path) {name : FileName} (h : name.head? ≠ some slash) :
    (base = [] ∧ joinPath base name = name) ∨
      (∃ b, base = b ++ [slash] ∧ joinPath base name = b ++ slash :: name) ∨
      (base ≠ [] ∧ joinPath base name = base ++ slash :: name) := by
  by_cases hbase : base = []
  · subst hbase
    exact Or.inl ⟨rfl, if_neg h⟩
  · unfold joinPath
    rw [if_neg h]
    split
    · next hend =>
      have hlast : base.getLast? = some slash := by simpa [hbase] using hend
      have hb : base.dropLast ++ [slash] = base := List.dropLast_append_getLast? _ hlast
      refine Or.inr (Or.inl ⟨base.dropLast, hb.symm, ?_⟩)
      nth_rewrite 1 [← hb]
      simp
    · exact Or.inr (Or.inr ⟨hbase, rfl⟩)

theorem fields_name {name : FileName} (h : FileTree.IsEntry name) :
    Text.fields (· == slash) name = [name] :=
  Text.fields_eq_singleton fun _ hc => beq_eq_false_iff_ne.2 fun e => h.noSlash (e ▸ hc)

theorem mem_fields_joinPath {base : Path} {name part : FileName} (h : FileTree.IsEntry name)
    (hpart : part ∈ Text.fields (· == slash) (joinPath base name)) :
    part ∈ Text.fields (· == slash) base ∨ part = name := by
  have hhead : name.head? ≠ some slash := fun h' => h.noSlash (List.mem_of_mem_head? h')
  rcases joinPath_cases base hhead with ⟨rfl, hjoin⟩ | ⟨b, rfl, hjoin⟩ | ⟨-, hjoin⟩
  · rw [hjoin, fields_name h] at hpart
    exact Or.inr (List.mem_singleton.1 hpart)
  · rw [hjoin, Text.fields_append_stop rfl, fields_name h] at hpart
    rw [Text.fields_append_stop rfl]
    rcases List.mem_append.1 hpart with hmem | hmem
    · exact Or.inl (List.mem_append_left _ hmem)
    · exact Or.inr (List.mem_singleton.1 hmem)
  · rw [hjoin, Text.fields_append_stop rfl, fields_name h] at hpart
    exact (List.mem_append.1 hpart).imp_right List.mem_singleton.1

namespace World

open FileTree (IsEntry KeepsDirectories dots greatestNameLength)

variable {w w' made : World} {path base : Path} {name : FileName} {place dir : Place}

/-! ## Where paths lead to -/

/-- The place that the names on a path lead to, however long the path is. -/
def reach (w : World) (path : Path) : Except FileError Place :=
  w.tree.follow (w.names path).1 (w.names path).2

theorem names_congr (hhere : w'.here = w.here) (path : Path) : w'.names path = w.names path := by
  unfold names
  rw [hhere]

theorem eq_nil_of_refusal (h : refusal? path = some .notFound) : path = [] := by
  unfold refusal? at h
  split at h
  · next hempty => exact List.isEmpty_iff.1 hempty
  · split at h
    · cases h
    · split at h <;> cases h

theorem locate_eq_ok_iff : w.locate path = .ok place ↔ refusal? path = none ∧ w.reach path = .ok place := by
  unfold locate
  split
  · next e he => simp [he]
  · next he => simp [he, reach]

theorem locate_of_refusal {e : FileError} (h : refusal? path = some e) : w.locate path = .error e := by
  unfold locate
  rw [h]

theorem locate_of_not_refused (h : refusal? path = none) : w.locate path = w.reach path := by
  unfold locate
  rw [h]
  rfl

theorem find_eq_directory_iff :
    w.find path = .ok (place, .directory) ↔
      w.locate path = .ok place ∧ w.tree.node? place = some .directory := by
  unfold find
  cases hlocate : w.locate path with
  | error e => simp [bind, Except.bind]
  | ok p =>
    simp only [bind, Except.bind]
    cases hnode : w.tree.node? p with
    | none =>
      simp
      rintro rfl
      simp [hnode]
    | some node =>
      simp [pure, Except.pure]
      rintro rfl
      simp [hnode]

/-- A name behind a path leads one step on from where the path leads to. -/
theorem reach_joinPath (w : World) (base : Path) (hname : IsEntry name) :
    w.reach (joinPath base name) = (w.reach base).bind fun p => w.tree.follow p [name] := by
  have hhead : name.head? ≠ some slash := fun h => hname.noSlash (List.mem_of_mem_head? h)
  rcases joinPath_cases base hhead with ⟨rfl, hjoin⟩ | ⟨b, rfl, hjoin⟩ | ⟨hbase, hjoin⟩
  · unfold reach names
    rw [hjoin, if_neg hhead, fields_name hname]
    exact (w.tree.follow_slash w.here name).symm
  · have hstart : (b ++ slash :: name).head? = (b ++ [slash]).head? := by
      rw [← List.singleton_append, ← List.append_assoc]
      exact List.head?_append_of_ne_nil _ (List.append_ne_nil_of_right_ne_nil _ (List.cons_ne_nil _ _))
    unfold reach names
    simp only [hjoin, hstart]
    rw [Text.fields_append_stop rfl, fields_name hname, Text.fields_append_stop rfl,
      FileTree.follow_append, FileTree.follow_append]
    cases w.tree.follow _ (Text.fields (· == slash) b) with
    | error e => rfl
    | ok p => exact (w.tree.follow_slash p name).symm
  · have hstart : (base ++ slash :: name).head? = base.head? := List.head?_append_of_ne_nil _ hbase
    unfold reach names
    simp only [hjoin, hstart]
    rw [Text.fields_append_stop rfl, fields_name hname, FileTree.follow_append]

theorem exists_of_find_joinPath (hname : IsEntry name)
    (h : w.find (joinPath base name) = .ok (place, .directory)) :
    ∃ dir, w.reach base = .ok dir ∧ place = dir ++ [name] := by
  have hreach := (locate_eq_ok_iff.1 (find_eq_directory_iff.1 h).1).2
  rw [reach_joinPath w base hname] at hreach
  cases hbase : w.reach base with
  | error e =>
    rw [hbase] at hreach
    cases hreach
  | ok dir =>
    rw [hbase] at hreach
    exact ⟨dir, rfl, (FileTree.exists_of_follow_entry hname hreach).2⟩

/-! ## Files in a directory -/

/-- The place that a name in the directory at `dir` leads to, unless the path or the name is too long. -/
def entry (base : Path) (dir : Place) (name : FileName) : Except FileError Place :=
  match refusal? (joinPath base name) with
  | some e => .error e
  | none =>
    if greatestNameLength < name.length then .error .nameTooLong else .ok (dir ++ [name])

theorem entry_eq_ok (h : entry base dir name = .ok place) : place = dir ++ [name] := by
  unfold entry at h
  split at h
  · cases h
  · split at h
    · cases h
    · cases h
      rfl

theorem locate_joinPath (hname : IsEntry name)
    (hbase : w.find base = .ok (dir, .directory)) :
    w.locate (joinPath base name) = entry base dir name := by
  obtain ⟨hlocate, hnode⟩ := find_eq_directory_iff.1 hbase
  unfold entry
  split
  · next e he => exact locate_of_refusal he
  · next hrefusal =>
    rw [locate_of_not_refused hrefusal, reach_joinPath w base hname,
      (locate_eq_ok_iff.1 hlocate).2]
    exact FileTree.follow_entry hname hnode

/-- The place of the file that a write to a path replaces or makes. -/
def fileAt (w : World) (path : Path) : Except FileError Place :=
  match w.locate path with
  | .error e => .error e
  | .ok place => if w.tree.node? place = some .directory then .error .isDirectory else .ok place

def putFile (place : Place) (content : Bytes) (w : World) : World :=
  { w with tree := w.tree.put place (.file content) }

theorem writeFile_of_error {e : FileError} {content : Bytes} (h : w.fileAt path = .error e) :
    writeFile path content w = (.error e, w) := by
  unfold fileAt at h
  unfold writeFile
  cases hlocate : w.locate path with
  | error e =>
    rw [hlocate] at h
    cases h
    rfl
  | ok p =>
    rw [hlocate] at h
    dsimp only at h ⊢
    split at h
    · next hnode =>
      cases h
      rw [if_pos hnode]
    · cases h

theorem writeFile_of_ok {content : Bytes} (h : w.fileAt path = .ok place) :
    writeFile path content w = (.ok (), w.putFile place content) := by
  unfold fileAt at h
  unfold writeFile
  cases hlocate : w.locate path with
  | error e =>
    rw [hlocate] at h
    cases h
  | ok p =>
    rw [hlocate] at h
    dsimp only at h ⊢
    split at h
    · cases h
    · next hnode =>
      cases h
      rw [if_neg hnode]
      rfl

theorem fileAt_eq_ok_iff :
    w.fileAt path = .ok place ↔
      w.locate path = .ok place ∧ w.tree.node? place ≠ some .directory := by
  unfold fileAt
  split
  · next e he => simp [he]
  · next p hp =>
    split
    · next hnode =>
      simp [hp]
      rintro rfl
      exact hnode
    · next hnode =>
      simp [hp]
      rintro rfl
      exact hnode

theorem fileContent_eq {content : Bytes} (hlocate : w.locate path = .ok place)
    (hnode : w.tree.node? place = some (.file content)) : w.fileContent path = .ok content := by
  unfold fileContent find
  rw [hlocate]
  simp only [bind, Except.bind, hnode, pure, Except.pure]

theorem fileAt_joinPath (hname : IsEntry name)
    (hbase : w.find base = .ok (dir, .directory)) (h : w.fileAt (joinPath base name) = .ok place) :
    place = dir ++ [name] ∧ w.tree.node? place ≠ some .directory := by
  obtain ⟨hlocate, hnode⟩ := fileAt_eq_ok_iff.1 h
  rw [locate_joinPath hname hbase] at hlocate
  exact ⟨entry_eq_ok hlocate, hnode⟩

/-! ## Machines with the same directories -/

/-- The current directory and all directories of two machines are the same. -/
structure Keeps (w w' : World) : Prop where
  here : w'.here = w.here
  directory_iff : ∀ p, w'.tree.node? p = some .directory ↔ w.tree.node? p = some .directory

namespace Keeps

theorem refl (w : World) : w.Keeps w :=
  ⟨rfl, fun _ => Iff.rfl⟩

theorem trans {w'' : World} (h : w.Keeps w') (h' : w'.Keeps w'') : w.Keeps w'' :=
  ⟨h'.here.trans h.here, fun p => (h'.directory_iff p).trans (h.directory_iff p)⟩

theorem putFile (hplace : w.tree.node? place ≠ some .directory) (content : Bytes) :
    w.Keeps (w.putFile place content) := by
  refine ⟨rfl, fun p => ?_⟩
  have hne : place ≠ [] := by
    rintro rfl
    exact hplace rfl
  by_cases hp : p = place
  · subst hp
    rw [World.putFile, FileTree.node?_put_self _ _ hne]
    exact ⟨fun h => absurd h (by simp), fun h => absurd h hplace⟩
  · rw [World.putFile, FileTree.node?_put_of_ne _ _ hp]

end Keeps

/-! ## Writing several files -/

def putFiles (files : List (Place × Bytes)) (w : World) : World :=
  files.foldl (fun w file => w.putFile file.1 file.2) w

variable {files : List (Place × Bytes)} {content : Bytes} {p : Place}

/-- Only the tree is another one. -/
theorem putFiles_eq (files : List (Place × Bytes)) (w : World) :
    w.putFiles files = { w with tree := (w.putFiles files).tree } := by
  induction files generalizing w with
  | nil => rfl
  | cons file files ih => exact ih (w.putFile file.1 file.2)

theorem putFiles_append (files more : List (Place × Bytes)) (w : World) :
    w.putFiles (files ++ more) = (w.putFiles files).putFiles more :=
  List.foldl_append

/-- What is written to a place, one after the other. -/
def writtenTo (p : Place) (files : List (Place × Bytes)) : List Bytes :=
  files.filterMap fun file => if file.1 = p then some file.2 else none

theorem writtenTo_cons (p : Place) (file : Place × Bytes) (files : List (Place × Bytes)) :
    writtenTo p (file :: files) =
      if file.1 = p then file.2 :: writtenTo p files else writtenTo p files := by
  unfold writtenTo
  rw [List.filterMap_cons]
  split <;> split <;> simp_all

theorem writtenTo_flatMap {α : Type} (p : Place) (f : α → List (Place × Bytes)) (l : List α) :
    writtenTo p (l.flatMap f) = l.flatMap fun a => writtenTo p (f a) :=
  List.filterMap_flatMap

/-- What is written to a place last is found there in the end. -/
theorem lookup_putFiles (files : List (Place × Bytes)) (w : World) (p : Place) :
    (w.putFiles files).tree.nodes.lookup p =
      ((writtenTo p files).getLast?.map .file).or (w.tree.nodes.lookup p) := by
  induction files generalizing w with
  | nil => rfl
  | cons file files ih =>
    have hstep : w.putFiles (file :: files) = (w.putFile file.1 file.2).putFiles files := rfl
    rw [hstep, ih, writtenTo_cons]
    by_cases hp : file.1 = p
    · subst hp
      rw [if_pos rfl, List.getLast?_cons]
      have hput : (w.putFile file.1 file.2).tree.nodes.lookup file.1 = some (.file file.2) :=
        FileTree.lookup_putNode_self _ _ _
      rw [hput]
      cases (writtenTo file.1 files).getLast? <;> rfl
    · rw [if_neg hp]
      have hput : (w.putFile file.1 file.2).tree.nodes.lookup p = w.tree.nodes.lookup p :=
        FileTree.lookup_putNode_of_ne _ _ (Ne.symm hp)
      rw [hput]

theorem node?_putFiles (hne : p ≠ []) :
    (w.putFiles files).tree.node? p =
      ((writtenTo p files).getLast?.map .file).or (w.tree.node? p) := by
  have hempty : ¬p.isEmpty = true := fun h => hne (List.isEmpty_iff.1 h)
  unfold FileTree.node?
  rw [if_neg hempty, if_neg hempty, lookup_putFiles]

theorem writtenTo_eq_nil_iff : writtenTo p files = [] ↔ ∀ file ∈ files, file.1 ≠ p := by
  simp [writtenTo]

/-- No place is new where files are written to places that there are. -/
theorem places_putFiles (h : ∀ file ∈ files, file.1 ∈ w.tree.nodes.map Prod.fst) :
    (w.putFiles files).tree.nodes.map Prod.fst = w.tree.nodes.map Prod.fst := by
  induction files generalizing w with
  | nil => rfl
  | cons file files ih =>
    have hput : (w.putFile file.1 file.2).tree.nodes.map Prod.fst = w.tree.nodes.map Prod.fst :=
      FileTree.places_putNode (h file List.mem_cons_self)
    rw [putFiles, List.foldl_cons, ← hput]
    exact ih fun other hmem => hput ▸ h other (List.mem_cons_of_mem _ hmem)

/-- Writing files again changes nothing, whatever else has been written to their places. -/
theorem putFiles_again (files : List (Place × Bytes)) (w : World) :
    (w.putFiles files).putFiles files = w.putFiles files := by
  have hplaces : ∀ file ∈ files, file.1 ∈ (w.putFiles files).tree.nodes.map Prod.fst := by
    intro file hfile
    have hne : writtenTo file.1 files ≠ [] := fun h => writtenTo_eq_nil_iff.1 h file hfile rfl
    have hlookup := lookup_putFiles files w file.1
    rw [List.getLast?_eq_some_getLast hne, Option.map_some, Option.some_or,
      FileTree.lookup_eq_some_iff (w.putFiles files).tree.nodup] at hlookup
    exact List.mem_map_of_mem hlookup
  have hnodes : ((w.putFiles files).putFiles files).tree.nodes = (w.putFiles files).tree.nodes := by
    refine FileTree.eq_of_lookup (FileTree.nodup _) (places_putFiles hplaces) fun p => ?_
    rw [lookup_putFiles files (w.putFiles files), lookup_putFiles files w, ← Option.or_assoc,
      Option.or_self]
  have htree : ((w.putFiles files).putFiles files).tree = (w.putFiles files).tree :=
    FileTree.ext hnodes
  rw [putFiles_eq files (w.putFiles files), htree]

/-- Other directories have the same files behind the writes. -/
theorem namesIn_putFiles (h : ∀ file ∈ files, file.1.dropLast ≠ place) :
    (w.putFiles files).tree.namesIn place = w.tree.namesIn place := by
  induction files generalizing w with
  | nil => rfl
  | cons file files ih =>
    rw [putFiles, List.foldl_cons]
    exact (ih fun file hmem => h file (List.mem_cons_of_mem _ hmem)).trans
      (FileTree.namesIn_put (h file List.mem_cons_self) _)

theorem Keeps.putFiles (h : ∀ file ∈ files, w.tree.node? file.1 ≠ some .directory) :
    w.Keeps (w.putFiles files) := by
  induction files generalizing w with
  | nil => exact .refl w
  | cons file files ih =>
    have hfirst := Keeps.putFile (h file List.mem_cons_self) file.2
    refine hfirst.trans (ih fun other hmem hdirectory => ?_)
    exact h other (List.mem_cons_of_mem _ hmem) ((hfirst.directory_iff _).1 hdirectory)

/-! ## Paths behind more directories -/

theorem find_of_keepsDirectories (hhere : w'.here = w.here)
    (hkeeps : w.tree.KeepsDirectories w'.tree) (h : w.find path = .ok (place, .directory)) :
    w'.find path = .ok (place, .directory) := by
  obtain ⟨hlocate, hnode⟩ := find_eq_directory_iff.1 h
  obtain ⟨hrefusal, hreach⟩ := locate_eq_ok_iff.1 hlocate
  refine find_eq_directory_iff.2 ⟨locate_eq_ok_iff.2 ⟨hrefusal, ?_⟩, hkeeps _ hnode⟩
  unfold reach at hreach ⊢
  rw [names_congr hhere]
  exact hkeeps.follow hreach

theorem Keeps.find (hkeeps : w.Keeps w') (h : w.find path = .ok (place, .directory)) :
    w'.find path = .ok (place, .directory) :=
  find_of_keepsDirectories hkeeps.here (fun p => (hkeeps.directory_iff p).2) h

/-- A write into a directory goes where it went as long as the directories stay. -/
theorem Keeps.fileAt (hkeeps : w.Keeps w') (hname : IsEntry name)
    (hbase : w.find base = .ok (dir, .directory)) :
    w'.fileAt (joinPath base name) = w.fileAt (joinPath base name) := by
  unfold World.fileAt
  rw [locate_joinPath hname hbase, locate_joinPath hname (hkeeps.find hbase)]
  simp only [hkeeps.directory_iff]

/-! ## Making directories -/

theorem makeDirectory_of_refusal {e : FileError} (h : refusal? path = some e) (w : World) :
    makeDirectory path w = (if e = .notFound then .ok () else .error e, w) := by
  unfold makeDirectory
  rw [h]
  cases e <;> rfl

theorem makeDirectory_of_not_refused (h : refusal? path = none) (w : World) :
    makeDirectory path w =
      ((FileTree.make (w.names path).1 (w.names path).2 w.tree).1,
        { w with tree := (FileTree.make (w.names path).1 (w.names path).2 w.tree).2 }) := by
  unfold makeDirectory
  rw [h]

theorem makeDirectory_grows (path : Path) (w : World) :
    (makeDirectory path w).2.here = w.here ∧ w.tree.Grows (makeDirectory path w).2.tree := by
  cases hrefusal : refusal? path with
  | some e =>
    rw [makeDirectory_of_refusal hrefusal]
    exact ⟨rfl, .refl _⟩
  | none =>
    rw [makeDirectory_of_not_refused hrefusal]
    exact ⟨rfl, FileTree.make_grows _ _ _⟩

theorem namesIn_makeDirectory (path : Path) (w : World) (place : Place) :
    (makeDirectory path w).2.tree.namesIn place = w.tree.namesIn place := by
  cases hrefusal : refusal? path with
  | some e => rw [makeDirectory_of_refusal hrefusal]
  | none =>
    rw [makeDirectory_of_not_refused hrefusal]
    exact FileTree.namesIn_make _ _ _ _

/-- Directories that were made are not made again, as long as the directories stay. -/
theorem makeDirectory_again {result : Except FileError Unit}
    (h : makeDirectory path w = (result, made)) (hhere : w'.here = made.here)
    (hkeeps : made.tree.KeepsDirectories w'.tree) (hend : result = .ok () ∨ w' = made) :
    makeDirectory path w' = (result, w') := by
  cases hrefusal : refusal? path with
  | some e =>
    rw [makeDirectory_of_refusal hrefusal] at h ⊢
    exact Prod.ext (Prod.mk.inj h).1 rfl
  | none =>
    rw [makeDirectory_of_not_refused hrefusal] at h ⊢
    obtain ⟨hresult, rfl⟩ := Prod.mk.inj h
    have hagain := FileTree.make_again (Prod.ext hresult rfl) hkeeps (hend.imp_right fun e => by rw [e])
    have hnames : w'.names path = w.names path := names_congr hhere path
    rw [hnames, hagain]

theorem exists_find_of_makeDirectory (hpath : path ≠ []) (h : makeDirectory path w = (.ok (), made)) :
    ∃ place, made.find path = .ok (place, .directory) := by
  cases hrefusal : refusal? path with
  | some e =>
    have hnotFound : e ≠ .notFound := fun he => hpath (eq_nil_of_refusal (he ▸ hrefusal))
    rw [makeDirectory_of_refusal hrefusal, if_neg hnotFound] at h
    cases h
  | none =>
    rw [makeDirectory_of_not_refused hrefusal] at h
    obtain ⟨hresult, hmade⟩ := Prod.mk.inj h
    obtain ⟨place, hfollow, hnode⟩ := FileTree.exists_follow_make (Prod.ext hresult rfl)
    refine ⟨place, find_eq_directory_iff.2 ⟨locate_eq_ok_iff.2 ⟨hrefusal, ?_⟩, ?_⟩⟩
    · rw [← hmade]
      exact hfollow
    · rw [← hmade]
      exact hnode

/-- A path that never goes up makes directories on its way only. -/
theorem isPrefix_of_makeDirectory (hdots : dots ∉ Text.fields (· == slash) path)
    (h : makeDirectory path w = (.ok (), made)) (hfind : made.find path = .ok (place, .directory))
    {p : Place} (hnone : w.tree.node? p = none) (hp : made.tree.node? p = some .directory) :
    p <+: place := by
  obtain ⟨hrefusal, hreach⟩ := locate_eq_ok_iff.1 (find_eq_directory_iff.1 hfind).1
  rw [makeDirectory_of_not_refused hrefusal] at h
  obtain ⟨hresult, rfl⟩ := Prod.mk.inj h
  exact (FileTree.isPrefix_of_made hdots (Prod.ext hresult rfl) hreach).2 p hnone hp

/-! ## Steps of a run -/

variable {α β : Type} {rest : α → StateM World β}

/-- The first step of a run, and the rest of it where that leads to. -/
theorem bind_eq {first : StateM World α} {a : α} (h : first w = (a, w')) :
    (first >>= rest) w = rest a w' := by
  change (match first w with | (a, w') => rest a w') = rest a w'
  rw [h]

/-- A step that changes nothing on the machine. -/
def Looks (step : StateM World α) : Prop :=
  ∀ w, (step w).2 = w

theorem Looks.bind {first : StateM World α} (hfirst : Looks first) (hrest : ∀ a, Looks (rest a)) :
    Looks (first >>= rest) := by
  intro w
  have hstep : first w = ((first w).1, w) := Prod.ext rfl (hfirst w)
  rw [bind_eq hstep]
  exact hrest _ w

theorem bind_isDirectory {rest : Bool → StateM World β} {b : Bool} (h : w.isDirectory path = b) :
    (Host.isDirectory path >>= rest) w = rest b w :=
  bind_eq (Prod.ext h rfl)

theorem bind_fileNames {rest : Except FileError (List FileName) → StateM World β}
    {names : Except FileError (List FileName)} (h : w.fileNames path = names) :
    (Host.fileNames path >>= rest) w = rest names w :=
  bind_eq (Prod.ext h rfl)

theorem bind_readFile {rest : Except FileError Bytes → StateM World β}
    {content : Except FileError Bytes} (h : w.fileContent path = content) :
    (Host.readFile path >>= rest) w = rest content w :=
  bind_eq (Prod.ext h rfl)

theorem bind_makeDirectory {rest : Except FileError Unit → StateM World β}
    {made : Except FileError Unit} (h : makeDirectory path w = (made, w')) :
    (Host.makeDirectory path >>= rest) w = rest made w' :=
  bind_eq h

theorem bind_writeFile {rest : Except FileError Unit → StateM World β} {content : Bytes}
    {written : Except FileError Unit} (h : writeFile path content w = (written, w')) :
    (Host.writeFile path content >>= rest) w = rest written w' :=
  bind_eq h

end World

end Unmask
