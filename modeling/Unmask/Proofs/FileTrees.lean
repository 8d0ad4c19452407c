import Mathlib.Data.List.Basic
import Unmask.Host.FileTree
import Unmask.Proofs.Parts

/-!
# Paths through file trees

Where a path leads to depends on the directories it goes through, and on nothing else of the tree.
Making directories adds those that are missing, and doing it again changes nothing.  A file that is
written changes no directory, so all paths that led to a directory still do.

    mem_namesIn       the files of a directory
    follow_append     the second half of a path starts where the first one ends
    make_grows        making directories takes nothing away
    make_again        and once they are made, it adds nothing
    isPrefix_of_made  what is made lies on the way, unless the path goes up
-/

namespace Unmask

namespace FileTree

variable {tree tree' made : FileTree} {place p : Place} {node : Node} {name : FileName}
  {names : List FileName}

/-! ## Nodes -/

theorem lookup_eq_some_iff {nodes : List (Place × Node)} (nodup : (nodes.map Prod.fst).Nodup) :
    nodes.lookup p = some node ↔ (p, node) ∈ nodes := by
  induction nodes with
  | nil => simp
  | cons entry nodes ih =>
    obtain ⟨q, n⟩ := entry
    rw [List.map_cons, List.nodup_cons] at nodup
    rw [List.lookup_cons, List.mem_cons]
    by_cases hq : p = q
    · subst hq
      have hnot : (p, node) ∉ nodes := fun h => nodup.1 (List.mem_map.2 ⟨_, h, rfl⟩)
      simp [hnot, eq_comm]
    · rw [beq_eq_false_iff_ne.2 hq]
      simp [hq, ih nodup.2]

/-- Where something is put in place of something else, no place is new. -/
theorem places_putNode {nodes : List (Place × Node)} (h : place ∈ nodes.map Prod.fst) :
    (putNode place node nodes).map Prod.fst = nodes.map Prod.fst := by
  induction nodes with
  | nil => cases h
  | cons entry nodes ih =>
    obtain ⟨q, n⟩ := entry
    by_cases hq : q = place
    · rw [putNode, if_pos hq, List.map_cons, List.map_cons, hq]
    · rw [putNode, if_neg hq, List.map_cons, List.map_cons, ih ?_]
      exact (List.mem_cons.1 h).resolve_left (Ne.symm hq)

/-- What is found at the places of a list makes it up. -/
theorem eq_of_lookup {nodes nodes' : List (Place × Node)} (nodup : (nodes.map Prod.fst).Nodup)
    (hplaces : nodes.map Prod.fst = nodes'.map Prod.fst)
    (hlookup : ∀ p, nodes.lookup p = nodes'.lookup p) : nodes = nodes' := by
  have hself (nodes : List (Place × Node)) (nodup : (nodes.map Prod.fst).Nodup) :
      nodes = (nodes.map Prod.fst).filterMap fun p => (nodes.lookup p).map (Prod.mk p) := by
    rw [List.filterMap_map, List.filterMap_congr (g := some)]
    · exact List.filterMap_some.symm
    · rintro ⟨p, n⟩ h
      simp [(lookup_eq_some_iff nodup).2 h]
  rw [hself nodes nodup, hself nodes' (hplaces ▸ nodup), hplaces]
  simp only [hlookup]

/-- A node that a selection leaves out may be put in for another one that it leaves out. -/
theorem filterMap_putNode {α : Type} {f : Place × Node → Option α} {nodes : List (Place × Node)}
    (hnew : f (place, node) = none)
    (hold : ∀ n, nodes.lookup place = some n → f (place, n) = none) :
    (putNode place node nodes).filterMap f = nodes.filterMap f := by
  induction nodes with
  | nil => simp [putNode, hnew]
  | cons entry nodes ih =>
    obtain ⟨q, n⟩ := entry
    by_cases hq : q = place
    · subst hq
      have hn := hold n (by rw [List.lookup_cons, beq_self_eq_true])
      rw [putNode, if_pos rfl, List.filterMap_cons_none hnew, List.filterMap_cons_none hn]
    · have hold' : ∀ n, nodes.lookup place = some n → f (place, n) = none := by
        intro n' hn'
        refine hold n' ?_
        rwa [List.lookup_cons, beq_eq_false_iff_ne.2 (Ne.symm hq)]
      rw [putNode, if_neg hq, List.filterMap_cons, List.filterMap_cons, ih hold']

/-! ## The files of a directory -/

/-- The name under which an entry of a tree is a file of the directory at `place`. -/
def fileIn? (place : Place) (entry : Place × Node) : Option FileName :=
  match entry.2, entry.1.getLast? with
  | .file _, some name => if entry.1.dropLast = place then some name else none
  | _, _ => none

theorem namesIn_eq (tree : FileTree) (place : Place) :
    tree.namesIn place = tree.nodes.filterMap (fileIn? place) :=
  rfl

theorem fileIn?_eq_some_iff {entry : Place × Node} :
    fileIn? place entry = some name ↔
      entry.1 = place ++ [name] ∧ ∃ content, entry.2 = .file content := by
  obtain ⟨q, node⟩ := entry
  constructor
  · intro h
    unfold fileIn? at h
    split at h
    · next content last hfile hlast =>
      split at h
      · next hplace =>
        cases h
        exact ⟨by rw [← hplace, List.dropLast_append_getLast? _ hlast], content, hfile⟩
      · cases h
    · cases h
  · rintro ⟨hq, content, hfile⟩
    dsimp only at hq hfile
    subst hq hfile
    simp [fileIn?]

theorem fileIn?_directory (place p : Place) : fileIn? place (p, .directory) = none :=
  rfl

theorem fileIn?_of_dropLast (h : p.dropLast ≠ place) (node : Node) :
    fileIn? place (p, node) = none := by
  refine Option.eq_none_iff_forall_ne_some.2 fun name hname => ?_
  obtain ⟨hp, -⟩ := fileIn?_eq_some_iff.1 hname
  dsimp only at hp
  rw [hp, List.dropLast_concat] at h
  exact h rfl

theorem mem_namesIn :
    name ∈ tree.namesIn place ↔
      ∃ content, tree.node? (place ++ [name]) = some (.file content) := by
  have hnode : tree.node? (place ++ [name]) = tree.nodes.lookup (place ++ [name]) := by
    simp [node?]
  simp only [hnode, lookup_eq_some_iff tree.nodup, namesIn_eq, List.mem_filterMap,
    fileIn?_eq_some_iff]
  constructor
  · rintro ⟨⟨q, node⟩, hmem, rfl, content, rfl⟩
    exact ⟨content, hmem⟩
  · rintro ⟨content, hmem⟩
    exact ⟨_, hmem, rfl, content, rfl⟩

/-- No name in a tree holds a slash, as on every machine: a slash stands between names only. -/
def SlashFree (tree : FileTree) : Prop :=
  ∀ entry ∈ tree.nodes, ∀ name ∈ entry.1, slash ∉ name

theorem slashFree_of_all
    (h : tree.nodes.all (fun entry => entry.1.all fun name => !name.contains slash) = true) :
    tree.SlashFree := by
  intro entry hentry name hname hslash
  have := List.all_eq_true.1 (List.all_eq_true.1 h entry hentry) name hname
  rw [List.contains_iff_mem.2 hslash] at this
  cases this

theorem SlashFree.of_mem_namesIn (h : tree.SlashFree) (hname : name ∈ tree.namesIn place) :
    slash ∉ name := by
  obtain ⟨content, hnode⟩ := mem_namesIn.1 hname
  have hlookup : tree.nodes.lookup (place ++ [name]) = some (.file content) := by
    simpa [node?] using hnode
  have hmem := (lookup_eq_some_iff tree.nodup).1 hlookup
  exact h _ hmem name (List.mem_append_right _ (List.mem_singleton_self name))

theorem nodup_namesIn (tree : FileTree) (place : Place) : (tree.namesIn place).Nodup := by
  rw [namesIn_eq]
  refine List.pairwise_filterMap.2 ((List.pairwise_map.1 tree.nodup).imp ?_)
  intro a b hne x hx y hy hxy
  subst hxy
  exact hne ((fileIn?_eq_some_iff.1 hx).1.trans (fileIn?_eq_some_iff.1 hy).1.symm)

theorem namesIn_put (h : p.dropLast ≠ place) (node : Node) :
    (tree.put p node).namesIn place = tree.namesIn place :=
  filterMap_putNode (fileIn?_of_dropLast h node) fun n _ => fileIn?_of_dropLast h n

theorem namesIn_put_directory (hne : p ≠ []) (h : tree.node? p = none) :
    (tree.put p .directory).namesIn place = tree.namesIn place := by
  have hlookup : tree.nodes.lookup p = none := by simpa [node?, hne] using h
  refine filterMap_putNode (fileIn?_directory place p) fun n hn => ?_
  rw [hlookup] at hn
  cases hn

/-! ## Following a path -/

theorem follow_append (tree : FileTree) (place : Place) (names more : List FileName) :
    tree.follow place (names ++ more) =
      (tree.follow place names).bind fun p => tree.follow p more := by
  fun_induction follow tree place names with
  | case1 place => rfl
  | case2 place name names h =>
    rw [List.cons_append, follow, h]
    rfl
  | case3 place name names content h =>
    rw [List.cons_append, follow, h]
    rfl
  | case4 place name names h hstay ih =>
    rw [List.cons_append, follow, h]
    dsimp only
    rw [if_pos hstay, ih]
  | case5 place names h hstay ih =>
    rw [List.cons_append, follow, h]
    dsimp only
    rw [if_neg hstay, if_pos rfl, ih]
  | case6 place name names h hstay hup hlong =>
    rw [List.cons_append, follow, h]
    dsimp only
    rw [if_neg hstay, if_neg hup, if_pos hlong]
    rfl
  | case7 place name names h hstay hup hlong ih =>
    rw [List.cons_append, follow, h]
    dsimp only
    rw [if_neg hstay, if_neg hup, if_neg hlong, ih]

/-- Every directory of one tree is a directory of the other. -/
def KeepsDirectories (tree tree' : FileTree) : Prop :=
  ∀ p, tree.node? p = some .directory → tree'.node? p = some .directory

/-- A path goes the same way wherever the directories on it are kept. -/
theorem KeepsDirectories.follow (h : tree.KeepsDirectories tree') {target : Place}
    (hfollow : tree.follow place names = .ok target) : tree'.follow place names = .ok target := by
  fun_induction FileTree.follow tree place names with
  | case1 place => exact hfollow
  | case2 | case3 | case6 => cases hfollow
  | case4 place name names hnode hstay ih =>
    rw [FileTree.follow, h _ hnode]
    dsimp only
    rw [if_pos hstay, ih hfollow]
  | case5 place names hnode hstay ih =>
    rw [FileTree.follow, h _ hnode]
    dsimp only
    rw [if_neg hstay, if_pos rfl, ih hfollow]
  | case7 place name names hnode hstay hup hlong ih =>
    rw [FileTree.follow, h _ hnode]
    dsimp only
    rw [if_neg hstay, if_neg hup, if_neg hlong, ih hfollow]

/-- The names that lead one step down and not further: not empty, not `.` and `..`, without slash. -/
structure IsEntry (name : FileName) : Prop where
  ne_nil : name ≠ []
  ne_dot : name ≠ dot
  ne_dots : name ≠ dots
  noSlash : slash ∉ name

theorem IsEntry.not_stays (h : IsEntry name) : ¬(name.isEmpty ∨ name = dot) := by
  rw [List.isEmpty_iff]
  exact not_or.2 ⟨h.ne_nil, h.ne_dot⟩

/-- An empty name asks for a directory, as the name behind it does. -/
theorem follow_slash (tree : FileTree) (place : Place) (name : FileName) :
    ((tree.follow place [[]]).bind fun p => tree.follow p [name]) = tree.follow place [name] := by
  cases h : tree.node? place with
  | none => simp only [follow, h, Except.bind]
  | some node =>
    cases node with
    | file content => simp only [follow, h, Except.bind]
    | directory =>
      have hstay : tree.follow place [[]] = .ok place := by
        rw [follow, h]
        exact if_pos (Or.inl rfl)
      rw [hstay]
      rfl

theorem follow_entry (hname : IsEntry name) (h : tree.node? place = some .directory) :
    tree.follow place [name] =
      if greatestNameLength < name.length then .error .nameTooLong
      else .ok (place ++ [name]) := by
  rw [follow, h]
  dsimp only
  rw [if_neg hname.not_stays, if_neg hname.ne_dots, follow]

theorem exists_of_follow_entry (hname : IsEntry name) {target : Place}
    (h : tree.follow place [name] = .ok target) :
    tree.node? place = some .directory ∧ target = place ++ [name] := by
  cases hnode : tree.node? place with
  | none =>
    rw [follow, hnode] at h
    cases h
  | some node =>
    cases node with
    | file content =>
      rw [follow, hnode] at h
      cases h
    | directory =>
      rw [follow_entry hname hnode] at h
      split at h
      · cases h
      · cases h
        exact ⟨rfl, rfl⟩

/-! ## Making directories -/

/-- What was there is still there, and what is new is a directory. -/
def Grows (tree tree' : FileTree) : Prop :=
  ∀ p, tree'.node? p = tree.node? p ∨
    tree.node? p = none ∧ tree'.node? p = some .directory

namespace Grows

theorem refl (tree : FileTree) : tree.Grows tree :=
  fun _ => Or.inl rfl

theorem keeps (h : tree.Grows tree') (hp : tree.node? p = some node) :
    tree'.node? p = some node := by
  rcases h p with heq | ⟨hnone, -⟩
  · rw [heq, hp]
  · rw [hnone] at hp
    cases hp

theorem keepsDirectories (h : tree.Grows tree') : tree.KeepsDirectories tree' :=
  fun _ hp => h.keeps hp

theorem trans {tree'' : FileTree} (h : tree.Grows tree') (h' : tree'.Grows tree'') :
    tree.Grows tree'' := by
  intro p
  rcases h p with heq | ⟨hnone, hdirectory⟩
  · rw [← heq]
    exact h' p
  · exact Or.inr ⟨hnone, h'.keeps hdirectory⟩

theorem put (hp : tree.node? p = none) : tree.Grows (tree.put p .directory) := by
  intro q
  have hne : p ≠ [] := by
    rintro rfl
    cases hp
  by_cases hq : q = p
  · subst hq
    exact Or.inr ⟨hp, node?_put_self _ tree hne⟩
  · exact Or.inl (node?_put_of_ne _ tree hq)

end Grows

/-- A tree with a directory at a place where there was nothing. -/
def withDirectory (p : Place) (tree : FileTree) : FileTree :=
  if (tree.node? p).isSome then tree else tree.put p .directory

theorem isSome_withDirectory (p : Place) (tree : FileTree) :
    ((tree.withDirectory p).node? p).isSome = true := by
  unfold withDirectory
  split
  · next h => exact h
  · next h =>
    have hne : p ≠ [] := by
      rintro rfl
      exact h rfl
    rw [node?_put_self _ tree hne]
    rfl

theorem node?_withDirectory_of_ne {p q : Place} (tree : FileTree) (hne : q ≠ p) :
    (tree.withDirectory p).node? q = tree.node? q := by
  unfold withDirectory
  split
  · rfl
  · exact node?_put_of_ne _ tree hne

theorem withDirectory_grows (p : Place) (tree : FileTree) : tree.Grows (tree.withDirectory p) := by
  unfold withDirectory
  split
  · exact .refl tree
  · next h => exact .put (by simpa using h)

theorem namesIn_withDirectory (p place : Place) (tree : FileTree) :
    (tree.withDirectory p).namesIn place = tree.namesIn place := by
  unfold withDirectory
  split
  · rfl
  · next h =>
    have hne : p ≠ [] := by
      rintro rfl
      exact h rfl
    exact namesIn_put_directory hne (by simpa using h)

theorem make_grows (place : Place) (names : List FileName) (tree : FileTree) :
    tree.Grows (make place names tree).2 := by
  fun_induction make place names tree with
  | case1 | case2 | case3 | case6 => exact .refl _
  | case4 place name names tree hnode hstay ih => exact ih
  | case5 place names tree hnode hstay ih => exact ih
  | case7 place name names tree hnode hstay hup hlong next ih =>
    exact (withDirectory_grows next tree).trans ih

theorem namesIn_make (place dir : Place) (names : List FileName) (tree : FileTree) :
    (make dir names tree).2.namesIn place = tree.namesIn place := by
  fun_induction make dir names tree with
  | case1 | case2 | case3 | case6 => rfl
  | case4 dir name names tree hnode hstay ih => exact ih
  | case5 dir names tree hnode hstay ih => exact ih
  | case7 dir name names tree hnode hstay hup hlong next ih =>
    exact ih.trans (namesIn_withDirectory next place tree)

theorem node?_of_make (h : make place names tree = (.ok (), made)) :
    made.node? place = some .directory := by
  have hnode : tree.node? place = some .directory := by
    cases names with
    | nil =>
      rw [make] at h
      by_contra hne
      rw [if_neg hne] at h
      cases h
    | cons name names =>
      rw [make] at h
      split at h
      · cases h
      · cases h
      · next hnode => exact hnode
  have hgrows := make_grows place names tree
  rw [h] at hgrows
  exact hgrows.keeps hnode

/-- A directory that was missing is there where what was made is kept. -/
theorem isSome_of_make {next : Place} {names : List FileName} {result : Except FileError Unit}
    (h : make next names (tree.withDirectory next) = (result, made))
    (hkeeps : made.KeepsDirectories tree') (hend : result = .ok () ∨ tree' = made) :
    (tree'.node? next).isSome = true := by
  rcases hend with rfl | rfl
  · rw [hkeeps _ (node?_of_make h)]
    rfl
  · obtain ⟨node, hn⟩ := Option.isSome_iff_exists.1 (isSome_withDirectory next tree)
    have hgrows := make_grows next names (tree.withDirectory next)
    rw [h] at hgrows
    rw [hgrows.keeps hn]
    rfl

/--
Once directories are made, making them again comes to the same end and adds nothing.  If all went
well, anything but the directories may have changed in between.
-/
theorem make_again {result : Except FileError Unit} (h : make place names tree = (result, made))
    (hkeeps : made.KeepsDirectories tree') (hend : result = .ok () ∨ tree' = made) :
    make place names tree' = (result, tree') := by
  -- a directory that is gone through is still one in the end
  have hdirectory : ∀ place names tree, (make place names tree).2 = made →
      ∀ p, tree.node? p = some .directory → tree'.node? p = some .directory := by
    rintro place names tree rfl p hp
    exact hkeeps p ((make_grows place names tree).keeps hp)
  fun_induction make place names tree with
  | case1 place tree =>
    obtain ⟨rfl, rfl⟩ := Prod.mk.inj h
    rcases hend with hok | rfl
    · have hnode : tree.node? place = some .directory := by
        by_contra hne
        rw [if_neg hne] at hok
        cases hok
      rw [make, if_pos (hkeeps _ hnode), if_pos hnode]
    · rfl
  | case2 place name names tree hnode =>
    cases h
    obtain rfl := hend.resolve_left fun hok => by cases hok
    rw [make, hnode]
  | case3 place name names tree content hnode =>
    cases h
    obtain rfl := hend.resolve_left fun hok => by cases hok
    rw [make, hnode]
  | case4 place name names tree hnode hstay ih =>
    rw [make, hdirectory place names tree (by rw [h]) _ hnode]
    dsimp only
    rw [if_pos hstay, ih h]
  | case5 place names tree hnode hstay ih =>
    rw [make, hdirectory place.dropLast names tree (by rw [h]) _ hnode]
    dsimp only
    rw [if_neg hstay, if_pos rfl, ih h]
  | case6 place name names tree hnode hstay hup hlong =>
    cases h
    obtain rfl := hend.resolve_left fun hok => by cases hok
    rw [make, hnode]
    dsimp only
    rw [if_neg hstay, if_neg hup, if_pos hlong]
  | case7 place name names tree hnode hstay hup hlong next ih =>
    have hmake : make next names (tree.withDirectory next) = (result, made) := h
    have hgrows := make_grows next names (tree.withDirectory next)
    rw [hmake] at hgrows
    have hnext := isSome_of_make hmake hkeeps hend
    rw [make, hkeeps _ (hgrows.keeps ((withDirectory_grows next tree).keeps hnode))]
    dsimp only
    rw [if_neg hstay, if_neg hup, if_neg hlong, if_pos hnext, ih h]

/-- Where directories were made, the path leads to the last one. -/
theorem exists_follow_make (h : make place names tree = (.ok (), made)) :
    ∃ p, made.follow place names = .ok p ∧ made.node? p = some .directory := by
  have hkeeps := (make_grows place names tree).keepsDirectories
  rw [h] at hkeeps
  fun_induction make place names tree with
  | case1 place tree =>
    by_cases hnode : tree.node? place = some .directory
    · rw [if_pos hnode] at h
      cases h
      exact ⟨place, rfl, hnode⟩
    · rw [if_neg hnode] at h
      cases h
  | case2 | case3 | case6 => cases h
  | case4 place name names tree hnode hstay ih =>
    obtain ⟨p, hfollow, hp⟩ := ih h hkeeps
    refine ⟨p, ?_, hp⟩
    rw [follow, hkeeps _ hnode]
    dsimp only
    rw [if_pos hstay, hfollow]
  | case5 place names tree hnode hstay ih =>
    obtain ⟨p, hfollow, hp⟩ := ih h hkeeps
    refine ⟨p, ?_, hp⟩
    rw [follow, hkeeps _ hnode]
    dsimp only
    rw [if_neg hstay, if_pos rfl, hfollow]
  | case7 place name names tree hnode hstay hup hlong next ih =>
    have hgrows := make_grows next names (tree.withDirectory next)
    rw [show make next names (tree.withDirectory next) = (.ok (), made) from h] at hgrows
    obtain ⟨p, hfollow, hp⟩ := ih h hgrows.keepsDirectories
    refine ⟨p, ?_, hp⟩
    rw [follow, hkeeps _ hnode]
    dsimp only
    rw [if_neg hstay, if_neg hup, if_neg hlong, hfollow]

/-- A path that never goes up makes directories on its way only. -/
theorem isPrefix_of_made {target : Place} (hdots : dots ∉ names)
    (h : make place names tree = (.ok (), made)) (hfollow : made.follow place names = .ok target) :
    place <+: target ∧
      ∀ p, tree.node? p = none → made.node? p = some .directory → p <+: target := by
  have hkeeps := (make_grows place names tree).keepsDirectories
  rw [h] at hkeeps
  fun_induction make place names tree with
  | case1 place tree =>
    obtain ⟨-, rfl⟩ := Prod.mk.inj h
    cases hfollow
    refine ⟨List.prefix_rfl, fun p hnone hp => ?_⟩
    rw [hnone] at hp
    cases hp
  | case2 | case3 | case6 => cases h
  | case4 place name names tree hnode hstay ih =>
    rw [follow, hkeeps _ hnode] at hfollow
    dsimp only at hfollow
    rw [if_pos hstay] at hfollow
    exact ih (fun hmem => hdots (List.mem_cons_of_mem _ hmem)) h hfollow hkeeps
  | case5 place names tree hnode hstay ih => exact absurd List.mem_cons_self hdots
  | case7 place name names tree hnode hstay hup hlong next ih =>
    have hgrows := make_grows next names (tree.withDirectory next)
    rw [show make next names (tree.withDirectory next) = (.ok (), made) from h] at hgrows
    rw [follow, hkeeps _ hnode] at hfollow
    dsimp only at hfollow
    rw [if_neg hstay, if_neg hup, if_neg hlong] at hfollow
    obtain ⟨hlead, hmade⟩ := ih (fun hmem => hdots (List.mem_cons_of_mem _ hmem)) h hfollow
      hgrows.keepsDirectories
    refine ⟨(List.prefix_append place [name]).trans hlead, fun p hnone hp => ?_⟩
    by_cases hpn : p = next
    · exact hpn ▸ hlead
    · exact hmade p ((node?_withDirectory_of_ne tree hpn).trans hnone) hp

end FileTree

end Unmask
